import Blockwise.Proofs.Flat.Arrivals
import Blockwise.Proofs.Flat.Finite
import Blockwise.Sample.TwoCalls

/-!
Exploration by blocks and plain exploration find the same targets, as far as locations and values
go, when calls are well nested in plain exploration and no block calls itself in the end.
-/
namespace Blockwise

open Relation (TransGen)
open Context

section

variable {program : Program} {c : Context} {start : State} {precision : Tracked} {l : Location}
  {v : Valuation}

def Program.FlatTarget (program : Program) (precision : Tracked) (start : State) (l : Location)
    (v : Valuation) : Prop :=
  ∃ g, program.Flat precision start g ∧ g.target = true ∧ g.location = l ∧ g.values = v

def Context.TargetAmong (c : Context) (targets : List NodeId) (l : Location) (v : Valuation) :
    Prop :=
  ∃ t ∈ targets, ∃ m, c.graph.Live t m ∧ m.state.location = l ∧ m.state.values = v

namespace State.Shows

theorem values_eq {base : List Location} {g m : State} (h : Shows Set.univ base g m) :
    m.values = g.values :=
  SortedMap.ext fun x => h.value x (Set.mem_univ x)

end State.Shows

/-- A run without an aggressive cache finds just the targets of plain exploration, when calls are
well nested there and no reached set calls itself. -/
theorem targets_agree {partitioning : Partitioning} {reducer : Reducer} {options : Options}
    (shutdown : Shutdown) {fuel : Nat} {targets : List NodeId}
    (hrun : run program fuel
      { Context.start partitioning reducer start precision options with shutdown } =
        .ok targets c)
    (hagg : options.aggressiveCaching = false) (hacyclic : ∀ s, ¬ TransGen c.SetCalls s s)
    (hw : program.WellNested precision start partitioning reducer) (l : Location) (v : Valuation) :
    program.FlatTarget precision start l v ↔ c.TargetAmong targets l v := by
  obtain ⟨hc, htargets, hextends⟩ := freshlyRun_of_run hrun
  have hfix := run_fixpoint shutdown hrun
  have hagg : c.cache.aggressive = false := hextends.aggressive.trans hagg
  have hw : program.WellNested precision start c.partitioning c.reducer := by
    rw [hextends.evolves.partitioning, hextends.evolves.reducer]
    exact hw
  have hr : Represents program precision start c (Frame.whole start) .topLevel := by
    have hkey : c.HasKey SetId.topLevel ⟨start, precision, start.location⟩ :=
      hextends.hasKey ⟨_, _, rfl, ⟨rfl, rfl⟩, rfl⟩
    obtain ⟨r, first, hset, hfirst, hkey⟩ := hkey
    obtain ⟨rfl, rfl, -⟩ := CacheKey.mk.inj hkey
    exact represents_whole hset hfirst
  constructor
  · rintro ⟨g, hg, htarget, rfl, rfl⟩
    obtain ⟨i, hi, -⟩ := Frame.exists_after (Frame.within_whole_iff.2 hg)
    cases hr.arrives hc hagg hw hfix hacyclic hi with
    | @shown n m hm htop hn hshow =>
      have hn := (mem_targets_iff hc.toStructured htargets).2
        ⟨m, hm, htop, hshow.target.trans htarget⟩
      exact ⟨n, hn, m, hm, hshow.location, hshow.values_eq⟩
    | called _ _ _ hno =>
      rw [htarget] at hno
      cases hno
  · rintro ⟨t, ht, m, hm, rfl, rfl⟩
    obtain ⟨m', hm', htop, htarget⟩ := (mem_targets_iff hc.toStructured htargets).1 ht
    cases hm.unique hm'
    obtain ⟨g, hg, hshow⟩ := hc.exists_shown hagg hw hm (htop ▸ hr)
    refine ⟨g, Frame.within_whole_iff.1 ?_, hshow.target ▸ htarget, hshow.location.symm,
      hshow.values_eq.symm⟩
    rcases hg with ⟨-, rfl⟩ | ⟨-, hg | ⟨-, -, -, hstop⟩⟩
    · exact .refl
    · exact hg.within
    · cases hstop

end

theorem two_calls_targets_agree : ∃ c,
    run Sample.program 100 (Sample.start {}) = .ok [12] c ∧ ∀ l v,
      Sample.program.FlatTarget ∅ { location := 0 } l v ↔ c.TargetAmong [12] l v := by
  have hvalue : value? (run Sample.program 100 (Sample.start {})) = some [12] := by
    decide +kernel
  obtain ⟨targets, hrun⟩ := ok_of_value? (by rw [hvalue]; rfl)
  rw [hrun] at hvalue
  cases hvalue
  have hflat : (Frame.whole { location := 0 }).Complete Sample.program ∅
      ((Frame.whole { location := 0 }).states Sample.program ∅ 40) := by decide +kernel
  have hw : Sample.program.WellNested ∅ { location := 0 } (.ofList [.of 10 [11] [12]])
      (.ofList [(10, ["y"])]) :=
    ⟨Program.callsConfined_of_finite hflat 40 (by decide +kernel),
      Program.callsNest_of_finite hflat 40 (by decide +kernel)⟩
  refine ⟨_, hrun, targets_agree .never hrun rfl ?_ hw⟩
  exact acyclic_of_calls_lt (by decide +kernel)

/-! ### Calls that cross -/

namespace Crossing

def program : Program :=
  [⟨0, .assign "z" 0, 1⟩, ⟨1, .skip, 2⟩, ⟨2, .skip, 5⟩, ⟨5, .skip, 4⟩, ⟨4, .assign "z" 1, 8⟩,
    ⟨8, .assume "z" 1 true, 9⟩, ⟨9, .error, 10⟩]

def partitioning : Partitioning := .ofList [.of 1 [] [5, 8], .of 2 [] [4]]

def reducer : Reducer := .ofList []

def precision : Tracked := .ofList ["z"]

def start : Context := .start partitioning reducer { location := 0 } precision {}

end Crossing

/-- A nested call passes a return node of the block around it. Plain exploration finds a target at
10, and exploration by blocks finds none. -/
theorem crossing_calls_disagree :
    Crossing.program.CallsConfined Crossing.precision { location := 0 } Crossing.partitioning
      Crossing.reducer ∧
    ∃ c, run Crossing.program 100 Crossing.start = .ok [] c ∧
      c.cache.aggressive = false ∧ (∀ s, ¬ TransGen c.SetCalls s s) ∧
      ∃ v, ¬ (Crossing.program.FlatTarget Crossing.precision { location := 0 } 10 v ↔
        c.TargetAmong [] 10 v) := by
  have hvalue : value? (run Crossing.program 100 Crossing.start) = some [] := by decide +kernel
  obtain ⟨targets, hrun⟩ := ok_of_value? (by rw [hvalue]; rfl)
  rw [hrun] at hvalue
  cases hvalue
  have hflat : (Frame.whole { location := 0 }).Complete Crossing.program Crossing.precision
      ((Frame.whole { location := 0 }).states Crossing.program Crossing.precision 40) := by
    decide +kernel
  refine ⟨Program.callsConfined_of_finite hflat 40 (by decide +kernel), _, hrun,
    by decide +kernel, acyclic_of_calls_lt (by decide +kernel), .ofList [("z", 1)],
    fun hagree => ?_⟩
  have htarget : ({ location := 10, values := .ofList [("z", 1)], target := true } : State) ∈
      (Frame.whole { location := 0 }).states Crossing.program Crossing.precision 40 := by
    decide +kernel
  obtain ⟨t, ht, -⟩ := hagree.1 ⟨_, Program.flat_of_mem_states htarget, rfl, rfl, rfl⟩
  exact List.not_mem_nil ht

end Blockwise
