import Blockwise.Proofs.Operations

/-!
The accounts of a repair. Every result that was cached before is still cached under its key, or its
first node has got another precision and it is cached under the new key, or it left the cache
because another result held this key before. Besides these only the exact results appear that the
report lists.
-/
namespace Blockwise

open Context

/-! A session with one block, in which the target is reached at once: its repair gives the first
node of the block the refined precision. -/

namespace Refining

def program : Program := [⟨0, .skip, 1⟩, ⟨1, .error, 2⟩]

def start (aggressive : Bool) : Context :=
  .start (.ofList [.of 1 [] [3]]) (.ofList [(1, ["x"])]) { location := 0 } (.ofList [])
    { aggressiveCaching := aggressive }

def explored (aggressive : Bool) : Context := finalState (run program 100 (start aggressive))

def path : Path := ⟨[0, 1, 4]⟩

def increments : List (Increment Tracked) := [Tracked.increment (.ofList ["x"])]

end Refining

variable {program : Program} {c c' : Context} {path : Path} {target : PathIndex}
  {increments : List (Increment Tracked)} {fuel : Nat} {report : Report}

/-- What a repair with this report makes of the cached results of `c`. -/
structure ResultsAccounted (increments : List (Increment Tracked)) (c : Context) (report : Report)
    (c' : Context) : Prop where
  /-- A result whose first node got the precision `p` moves, unless the new key was taken before. -/
  old : ∀ K s, c.cache.lookup K = some s → c.HasKey s K ∧
    (c'.HasKey s K ∧ c'.cache.lookup K = some s ∨
      ∃ p, p ≠ K.precision ∧ c'.HasKey s { K with precision := p } ∧ c'.cache.lookup K = none ∧
        (c'.cache.lookup { K with precision := p } = some s ∧
            c'.cache.containsPrecise { K with precision := p } ∧
            { K with precision := p } ∈ report.rekeyed ∨
          (∀ L, c'.cache.lookup L ≠ some s) ∧ ∃ t before, t ≠ s ∧
            c'.cache.lookup { K with precision := p } = some t ∧
            ResultSteps increments ({}, c) before ∧ before.2.cache.lookup K = some s ∧
            before.2.cache.lookup { K with precision := p } = some t ∧
            ResultSteps increments before (report, c')))
  /-- No other results appear but the exact ones. -/
  new : ∀ K s, c'.cache.lookup K = some s → c.cache.lookup K = some s ∨ K ∈ report.exactEntries ∨
    K ∈ report.rekeyed ∧ ∃ p, p ≠ K.precision ∧ c.cache.lookup { K with precision := p } = some s

theorem ResultSteps.accounted (st : ResultSteps increments ({}, c) (report, c')) (hst : c.Stored)
    (hst' : c'.Stored) : ResultsAccounted increments c report c' where
  old := by
    intro K s hs
    refine ⟨(hst hs).2.1, ?_⟩
    cases Accounted.of_steps st hst hs with
    | kept hkey hs' => exact Or.inl ⟨hkey, hs'⟩
    | moved hp hne hchanged hkey hold hs' hlisted =>
      exact Or.inr ⟨_, hchanged, hkey, hold, Or.inl ⟨hs', (hst' hs').2.2, hlisted⟩⟩
    | displaced hp hne hchanged hkey hold hfirst hs' htaken hts hthen htpos htkey ht =>
      refine Or.inr ⟨_, hchanged, hkey, hold, Or.inr ⟨fun L hL => ?_, _, _, hts, ht, hfirst, hs',
        htaken, hthen⟩⟩
      cases hkey.unique (hst' hL).2.1
      exact hts (Option.some.inj (ht.symm.trans hL))
  new := by
    intro K s hs
    exact (st.source hs).imp_right fun ⟨_, hlist⟩ => hlist

theorem Explored.operated (e : Explored program c) : Operated c := by
  induction e with
  | start => exact .start ..
  | run _ shutdown fuel ih => exact .run (.flag ih shutdown) program fuel

theorem Maintained.operated (m : Maintained program c) : Operated c := by
  induction m with
  | explored e => exact e.operated
  | repair _ shutdown fuel path target increments ih =>
    exact .repair (.flag ih shutdown) fuel path target increments

/-- A successful repair loses no cached result without an account. -/
theorem repair_accounts_for_results (m : Maintained program c) (shutdown : Shutdown)
    (hr : repairPath fuel path target increments { c with shutdown } = .ok report c') :
    ResultsAccounted increments { c with shutdown } report c' := by
  have h : Regular { c with shutdown } := m.operated.regular.quiet c.statistics shutdown
  have t := (traces_repairPath fuel path target increments _ (.start h)).of_ok hr
  exact t.steps.accounted h.stored t.regular.stored

theorem refining_accounts_for_results : ∃ report c',
    repairPath 100 Refining.path 2 Refining.increments
      { Refining.explored false with shutdown := .never } = .ok report c' ∧
    report.rekeyed ≠ [] ∧
    ResultsAccounted Refining.increments { Refining.explored false with shutdown := .never }
      report c' := by
  have m : Maintained Refining.program (Refining.explored false) :=
    .explored (.run (.start ..) Shutdown.never 100)
  have hlisted : (value? (repairPath 100 Refining.path 2 Refining.increments
      { Refining.explored false with shutdown := .never })).map (·.rekeyed) =
        some [⟨{ location := 1 }, .ofList ["x"], 1⟩] := by decide +kernel
  obtain ⟨report, hr⟩ := ok_of_value? (r := repairPath 100 Refining.path 2 Refining.increments
    { Refining.explored false with shutdown := .never }) (by decide +kernel)
  rw [hr] at hlisted
  have hrekeyed : report.rekeyed = [⟨{ location := 1 }, .ofList ["x"], 1⟩] :=
    Option.some.inj hlisted
  refine ⟨report, _, hr, ?_, repair_accounts_for_results m .never hr⟩
  rw [hrekeyed]
  exact List.cons_ne_nil _ _

end Blockwise
