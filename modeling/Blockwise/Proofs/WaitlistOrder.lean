import Blockwise.Proofs.Fixpoint
import Blockwise.Proofs.Order.Invocations

/-!
The order in which nodes are taken from the waitlists does not change the results. In a fixpoint all
that is reached from the entry of a block is shown by nodes of its set. So two runs that end, each
in whatever order, show the same states and have the same blocks in the cache.
-/
namespace Blockwise

open Relation (TransGen)
open Context

section

variable {program : Program} {c c' : Context} {n : NodeId} {m : Node State Tracked} {s t : SetId}
  {I J : Invocation} {view : Bool} {σ : State}

namespace Context

/-- A node of `s` behind the first one shows the state. Views are not covered. -/
def ShowsBehind (c : Context) (s : SetId) (view : Bool) (σ : State) : Prop :=
  ∃ n m, c.graph.Live n m ∧ m.set = s ∧ ¬ c.Heads n ∧ m.state = σ ∧
    (view = true → m.coveredBy = none)

theorem showsBehind_of_view (h : c.Structured) (hsel : c.Selective) (hm : c.graph.Live n m)
    {v : Option State × Option NodeId} (hv : v ∈ c.views n) (hstate : v.1 = some σ)
    (hview : view = true → ∃ x, v.2 = some x) : c.ShowsBehind m.set view σ := by
  obtain ⟨k, mk, he, hmk, hsame, hx⟩ := child_of_mem_views h hv hstate
  obtain ⟨m', mk', hm', hmk', -, -, hset⟩ := h.live_of_edge he
  cases hm.unique hm'
  cases hmk.unique hmk'
  refine ⟨k, mk, hmk, hset.symm, h.not_heads_of_edge he, hsame, fun hyes => ?_⟩
  obtain ⟨x, hx'⟩ := hview hyes
  exact (hsel.node k mk hmk).view x (hx.trans hx')

section

variable (hc : c.FreshlyRun program) (hfix : c.Fixpoint program)

include hc hfix

theorem Fixpoint.behind (hI : c.Realizes s I) (hσ : c.ShowsBehind s view σ)
    (hgo : I.GoesOn c.partitioning view σ) : ∃ n m, c.graph.Live n m ∧ m.set = s ∧
      ¬ c.Heads n ∧ m.state = σ ∧ if c.partitioning.isCallNode σ.location = true
        then c.CallExpanded n m
        else c.views n =
          (program.successors σ I.key.precision).map fun next => (some next, none) := by
  obtain ⟨k, mk, hmk, rfl, hk, rfl, hview⟩ := hσ
  obtain ⟨n, m, hm, hset, hfree, hstate, hsame⟩ := hc.exists_uncovered hmk
  have hn : ¬ c.Heads n := by
    intro hn
    rcases hgo.fresh with hyes | hne
    · exact hk (hsame (hview hyes) ▸ hn)
    · rw [← hset] at hI
      exact hne (hstate.symm.trans (hI.state_eq hc.toStructured hm hn))
  rw [← hset] at hI ⊢
  rw [← hstate] at hgo ⊢
  obtain ⟨r, hr, hmem⟩ := hc.set_of_live hm
  have htarget : m.state.target = false := Bool.not_eq_true _ ▸ fun hyes => hgo.stops (Or.inl hyes)
  have hnode := hfix.node m.set r n m hr hmem hm hfree htarget fun hne hx =>
    hgo.stops (hI.stops_of_isExit (Nat.pos_of_ne_zero hne) hx hm)
  refine ⟨n, m, hm, rfl, hn, rfl, ?_⟩
  rw [hc.precision_eq hm hI] at hnode
  have hfirst : n ≠ r.first := fun hfirst => hn ⟨m.set, r, hr, hfirst.symm⟩
  simpa [hfirst] using hnode

variable (hsel : c.Selective) (hagg : c.cache.aggressive = false)
  (hacyclic : ∀ s, ¬ TransGen c.SetCalls s s)

include hagg in
theorem Fixpoint.realizes_call {b : Block} (hI : c.Realizes s I) (hσ : c.ShowsBehind s view σ)
    (hgo : I.GoesOn c.partitioning view σ) (hb : c.partitioning.block? σ.location = some b) :
    ∃ n m t, c.graph.Live n m ∧ m.set = s ∧ m.state = σ ∧ c.links.setOfEntry n = some t ∧
      c.Realizes t (I.call c.reducer b σ) ∧ c.CallExpanded n m := by
  obtain ⟨n, m, hm, rfl, -, rfl, hnode⟩ := hfix.behind hc hI hσ hgo
  have hcall : c.partitioning.isCallNode m.state.location = true := by
    rw [Partitioning.isCallNode, Table.contains]
    exact Option.isSome_iff_exists.2 ⟨b, hb⟩
  rw [if_pos hcall] at hnode
  obtain ⟨t, hl, -⟩ := id hnode
  obtain ⟨-, -, -, -, -, -, hpos, -⟩ := hc.call hl
  exact ⟨n, m, t, hm, rfl, rfl, hl, hc.realizes_call hm hI hb (hc.derived.key hagg n t hl) hpos,
    hnode⟩

include hsel hagg hacyclic

theorem Fixpoint.showsBehind (hσ : I.Reaches program c.partitioning c.reducer view σ)
    (hI : c.Realizes s I) : c.ShowsBehind s view σ := by
  have successor : ∀ {I : Invocation} {n m σ next}, c.graph.Live n m →
      c.views n = (program.successors σ I.key.precision).map (fun next => (some next, none)) →
      next ∈ program.successors σ I.key.precision → c.ShowsBehind m.set false next :=
    fun hm hviews hnext => showsBehind_of_view hc.toStructured hsel hm
      (hviews ▸ List.mem_map_of_mem hnext) rfl (by simp)
  induction hσ generalizing s with
  | first htarget hs =>
    obtain ⟨r, f, hr, hf, hkey⟩ := hI.key
    obtain ⟨f', hf', rfl⟩ := hc.live_first hr
    cases hf.unique hf'
    have hhead : c.Heads r.first := ⟨f.set, r, hr, rfl⟩
    rw [hkey] at htarget
    have hnode := hfix.node f.set r r.first f hr (hc.first_mem hr) hf (hc.head hf hhead).2 htarget
      fun _ ⟨q, _, _, _, hq, _, _, _, hne, _⟩ => hne (Option.some.inj (hr.symm.trans hq) ▸ rfl)
    rw [if_neg fun hcall => hcall.1 rfl] at hnode
    refine successor hf ?_ hs
    rw [hnode, hkey]
  | step hσ hgo hcall hs ih =>
    obtain ⟨n, m, hm, rfl, -, -, hnode⟩ := hfix.behind hc hI (ih hI) hgo
    rw [if_neg (by simp [hcall])] at hnode
    exact successor hm hnode hs
  | @view I v v' σ τ b hσ hgo hb hτ hexit ih ihτ =>
    obtain ⟨n, m, t, hm, rfl, rfl, hl, hcall, t', hl', hexpanded⟩ :=
      hfix.realizes_call hc hagg hI (ih hI) hgo hb
    cases Option.some.inj (hl.symm.trans hl')
    obtain ⟨b', exits, hb', hexits, hviews⟩ := hexpanded hacyclic
    cases Option.some.inj (hb.symm.trans hb')
    -- the exit is shown in the set that the call node is linked to
    obtain ⟨x, mx, hmx, rfl, hx, rfl, -⟩ := ihτ hcall
    have hmem := (mem_blockExits_iff hc.toStructured hexits x).2
      (hcall.isExit_of_stops hc.toStructured hb hmx hx hexit)
    refine showsBehind_of_view hc.toStructured hsel hm (v := c.viewOf m.state b x) ?_ ?_
      fun _ => ⟨x, rfl⟩
    · rw [hviews]
      exact List.mem_map_of_mem hmem
    · simp [viewOf, stateOf, hmx.1]

theorem Fixpoint.exists_realizes {start : Invocation} (hstart : c.Realizes SetId.topLevel start)
    (hJ : start.Enters program c.partitioning c.reducer J) : ∃ s, c.Realizes s J := by
  induction hJ with
  | start => exact ⟨_, hstart⟩
  | call _ hσ hgo hb ih =>
    obtain ⟨s, hI⟩ := ih
    have hshows := hfix.showsBehind hc hsel hagg hacyclic hσ hI
    obtain ⟨-, -, t, -, -, -, -, ht, -⟩ := hfix.realizes_call hc hagg hI hshows hgo hb
    exact ⟨t, ht⟩

end

def shown (c : Context) (nodes : List NodeId) : Set State :=
  {σ | ∃ n ∈ nodes, ∃ m, c.graph.Live n m ∧ m.state = σ}

def states (c : Context) (s : SetId) : Set State :=
  {σ | ∃ r, c.sets[s]? = some r ∧ σ ∈ c.shown r.nodes.toList}

structure Denotes (program : Program) (c : Context) (start : Invocation) : Prop where
  states : ∀ s I, c.Realizes s I →
    c.states s = {σ | I.Shows program c.partitioning c.reducer σ}
  keys : ∀ K, (∃ s, c.cache.lookup K = some s) ↔
    start.Enters program c.partitioning c.reducer ⟨K, true⟩

theorem mem_states_iff (h : c.Structured) (hI : c.Realizes s I) :
    σ ∈ c.states s ↔ ∃ n m, c.graph.Live n m ∧ m.set = s ∧ m.state = σ := by
  obtain ⟨r, f, hr, -⟩ := hI.key
  constructor
  · rintro ⟨r', hr', n, hn, m, hm, rfl⟩
    obtain ⟨m', hm', rfl⟩ := h.live_of_mem hr' hn
    exact ⟨n, m', hm', rfl, by rw [hm.unique hm']⟩
  · rintro ⟨n, m, hm, rfl, rfl⟩
    exact ⟨r, hr, n, (h.mem_iff hr).2 ⟨m, hm, rfl⟩, m, hm, rfl⟩

theorem denotes_of_fixpoint (hc : c.FreshlyRun program) (hfix : c.Fixpoint program)
    (hsel : c.Selective) (hagg : c.cache.aggressive = false)
    (hacyclic : ∀ s, ¬ TransGen c.SetCalls s s) {start : Invocation}
    (hstart : c.Realizes SetId.topLevel start) : c.Denotes program start where
  states := by
    intro s I hI
    ext σ
    rw [mem_states_iff hc.toStructured hI]
    constructor
    · rintro ⟨n, m, hm, rfl, rfl⟩
      by_cases hn : c.Heads n
      · exact Or.inl (hI.state_eq hc.toStructured hm hn)
      · exact Or.inr ⟨_, (hc.reached hsel hagg hstart hm hI).reaches hn⟩
    · rintro (rfl | ⟨view, hσ⟩)
      · obtain ⟨r, f, hr, hf, hkey⟩ := hI.key
        obtain ⟨f', hf', rfl⟩ := hc.live_first hr
        exact ⟨r.first, f', hf', rfl, by rw [hkey, hf.unique hf']⟩
      · obtain ⟨n, m, hm, hset, -, hstate, -⟩ := hfix.showsBehind hc hsel hagg hacyclic hσ hI
        exact ⟨n, m, hm, hset, hstate⟩
  keys := by
    intro K
    constructor
    · rintro ⟨s, hs⟩
      obtain ⟨hpos, hkey, -⟩ := hc.stored hs
      obtain ⟨r, f, hr, hf, -⟩ := id hkey
      obtain ⟨f', hf', rfl⟩ := hc.live_first hr
      exact (hc.reached hsel hagg hstart hf' ⟨hkey, iff_of_true rfl hpos⟩).enters
    · intro hK
      obtain ⟨s, hs⟩ := hfix.exists_realizes hc hsel hagg hacyclic hstart hK
      obtain ⟨r, f, hr, -⟩ := id hs.key
      obtain ⟨K', hK'⟩ := hc.allStored s (hs.nested.1 rfl) (lt_size_of_sets hr)
      have hkey : K' = K := hs.key.unique (hc.stored hK').2.1
      exact ⟨s, hkey ▸ hK'⟩

/-- The states of the whole program, the keys in the cache and the states of each cached result are
the same. -/
structure SameResults (c c' : Context) : Prop where
  whole : c.states .topLevel = c'.states .topLevel
  keys : ∀ K, (∃ s, c.cache.lookup K = some s) ↔ ∃ s, c'.cache.lookup K = some s
  blocks : ∀ K s s', c.cache.lookup K = some s → c'.cache.lookup K = some s' →
    c.states s = c'.states s'

theorem Denotes.sameResults {start : Invocation} (hd : c.Denotes program start)
    (hd' : c'.Denotes program start) (h : c.Sound) (h' : c'.Sound)
    (hpartitioning : c'.partitioning = c.partitioning) (hreducer : c'.reducer = c.reducer)
    (hstart : c.Realizes SetId.topLevel start) (hstart' : c'.Realizes SetId.topLevel start) :
    c.SameResults c' := by
  have states : ∀ {I s s'}, c.Realizes s I → c'.Realizes s' I → c.states s = c'.states s' := by
    intro I s s' hI hI'
    rw [hd.states s I hI, hd'.states s' I hI', hpartitioning, hreducer]
  refine ⟨states hstart hstart', fun K => ?_, fun K s s' hs hs' => ?_⟩
  · rw [hd.keys, hd'.keys, hpartitioning, hreducer]
  · obtain ⟨hpos, hkey, -⟩ := h.stored hs
    obtain ⟨hpos', hkey', -⟩ := h'.stored hs'
    exact states (I := ⟨K, true⟩) ⟨hkey, iff_of_true rfl hpos⟩ ⟨hkey', iff_of_true rfl hpos'⟩

theorem mem_shown_targets_iff (h : c.Structured) {targets : List NodeId}
    (ht : c.targets = .ok targets) (hI : c.Realizes SetId.topLevel I) :
    σ ∈ c.shown targets ↔ σ ∈ c.states .topLevel ∧ σ.target = true := by
  rw [mem_states_iff h hI]
  constructor
  · rintro ⟨n, hn, m, hm, rfl⟩
    obtain ⟨m', hm', htop, htarget⟩ := (mem_targets_iff h ht).1 hn
    cases hm.unique hm'
    exact ⟨⟨n, m, hm, htop, rfl⟩, htarget⟩
  · rintro ⟨⟨n, m, hm, htop, rfl⟩, htarget⟩
    exact ⟨n, (mem_targets_iff h ht).2 ⟨m, hm, htop, htarget⟩, m, hm, rfl⟩

end Context

variable {partitioning : Partitioning} {reducer : Reducer} {state : State} {precision : Tracked}
  {options options' : Options} {shutdown shutdown' : Shutdown} {fuel fuel' : Nat}
  {targets targets' : List NodeId}

theorem denotes_of_run (hrun : run program fuel
      { Context.start partitioning reducer state precision options with shutdown } = .ok targets c)
    (hagg : options.aggressiveCaching = false) (hacyclic : ∀ s, ¬ TransGen c.SetCalls s s) :
    c.Realizes SetId.topLevel ⟨⟨state, precision, state.location⟩, false⟩ ∧
      c.Denotes program ⟨⟨state, precision, state.location⟩, false⟩ := by
  obtain ⟨hc, -, hextends⟩ := freshlyRun_of_run hrun
  have hsel := selective_of_run program partitioning reducer state precision options shutdown fuel
  rw [hrun] at hsel
  have hstart : c.Realizes SetId.topLevel ⟨⟨state, precision, state.location⟩, false⟩ :=
    ⟨hextends.hasKey ⟨_, _, rfl, ⟨rfl, rfl⟩, rfl⟩, iff_of_false (by simp) (Nat.lt_irrefl 0)⟩
  exact ⟨hstart, denotes_of_fixpoint hc (run_fixpoint shutdown hrun) hsel
    (hextends.aggressive.trans hagg) hacyclic hstart⟩

/-- Two runs from the same start have the same results, in whatever order they take the nodes from
the waitlists, when no reached set calls itself in the end. -/
theorem results_independent_of_order
    (hrun : run program fuel
      { Context.start partitioning reducer state precision options with shutdown } = .ok targets c)
    (hrun' : run program fuel'
      { Context.start partitioning reducer state precision options' with shutdown := shutdown' } =
        .ok targets' c')
    (hagg : options.aggressiveCaching = false) (hagg' : options'.aggressiveCaching = false)
    (hacyclic : ∀ s, ¬ TransGen c.SetCalls s s) (hacyclic' : ∀ s, ¬ TransGen c'.SetCalls s s) :
    c.SameResults c' ∧ c.shown targets = c'.shown targets' := by
  obtain ⟨hstart, hd⟩ := denotes_of_run hrun hagg hacyclic
  obtain ⟨hstart', hd'⟩ := denotes_of_run hrun' hagg' hacyclic'
  obtain ⟨hc, htargets, e⟩ := freshlyRun_of_run hrun
  obtain ⟨hc', htargets', e'⟩ := freshlyRun_of_run hrun'
  have hsame : c.SameResults c' := hd.sameResults hd' hc.toSound hc'.toSound
    (e'.evolves.partitioning.trans e.evolves.partitioning.symm)
    (e'.evolves.reducer.trans e.evolves.reducer.symm) hstart hstart'
  refine ⟨hsame, Set.ext fun σ => ?_⟩
  rw [mem_shown_targets_iff hc.toStructured htargets hstart,
    mem_shown_targets_iff hc'.toStructured htargets' hstart', hsame.whole]

end

/-! Two calls of a block in different states. -/

namespace TwoStates

def program : Program :=
  [⟨0, .assign "y" 1, 1⟩, ⟨0, .assign "y" 2, 1⟩, ⟨1, .call 2, 10⟩, ⟨10, .skip, 11⟩,
    ⟨11, .return, 2⟩, ⟨2, .assume "y" 2 true, 3⟩, ⟨3, .error, 4⟩]

def start (order : WaitlistOrder) : Context :=
  .start (.ofList [.of 10 [] [11]]) (.ofList [(10, ["y"])]) { location := 0 } (.ofList ["y"])
    { order }

def key (y : Int) : Key := ⟨{ location := 10, values := .ofList [("y", y)] }, .ofList ["y"], 10⟩

end TwoStates

theorem two_states_in_any_order : ∃ c c',
    run TwoStates.program 100 (TwoStates.start .fifo) = .ok [14] c ∧
    run TwoStates.program 100 (TwoStates.start .lifo) = .ok [9] c' ∧
    c.cache.lookup (TwoStates.key 1) = some 1 ∧ c'.cache.lookup (TwoStates.key 1) = some 2 ∧
    (∀ s, ¬ TransGen c.SetCalls s s) ∧ (∀ s, ¬ TransGen c'.SetCalls s s) ∧
    c.SameResults c' ∧ c.shown [14] = c'.shown [9] := by
  have hvalue : value? (run TwoStates.program 100 (TwoStates.start .fifo)) = some [14] := by
    decide +kernel
  obtain ⟨targets, hrun⟩ := ok_of_value? (by rw [hvalue]; rfl)
  rw [hrun] at hvalue
  cases hvalue
  have hvalue' : value? (run TwoStates.program 100 (TwoStates.start .lifo)) = some [9] := by
    decide +kernel
  obtain ⟨targets', hrun'⟩ := ok_of_value? (by rw [hvalue']; rfl)
  rw [hrun'] at hvalue'
  cases hvalue'
  have hacyclic := acyclic_of_calls_lt
    (c := finalState (run TwoStates.program 100 (TwoStates.start .fifo))) (by decide +kernel)
  have hacyclic' := acyclic_of_calls_lt
    (c := finalState (run TwoStates.program 100 (TwoStates.start .lifo))) (by decide +kernel)
  exact ⟨_, _, hrun, hrun', by decide +kernel, by decide +kernel, hacyclic, hacyclic',
    results_independent_of_order hrun hrun' rfl rfl
      hacyclic hacyclic'⟩

end Blockwise
