import Blockwise.Proofs.RepairEffect

/-!
What is left after a repair. A node that lost a child waits to be explored again, and a node that
waited still does. Nothing is left to repair: the links behind a removed target are dropped with it,
so a second repair finds the target itself, which is destroyed.
-/
namespace Blockwise

open Context

variable {program : Program} {c c' d : Context} {roots : List NodeId} {s : SetId} {r q : ReachedSet}
  {root node n t : NodeId} {gone : IdSet} {adjustment : Adjustment Tracked}

/-! ### What waits -/

namespace Context

def Queued (c : Context) (n : NodeId) : Prop :=
  ∃ m r, c.graph.Live n m ∧ c.sets[m.set]? = some r ∧ n ∈ r.waitlist

/-- Between `c` and `c'` no need to explore a node is forgotten. -/
structure Requeues (c c' : Context) : Prop where
  waiting : ∀ n m, c.Queued n → c'.graph.Live n m → c'.Queued n
  bereft : ∀ a b m, c.graph.Edge a b → c'.graph.Live a m → (∀ k, ¬ c'.graph.Live b k) →
    c'.Queued a

theorem Structured.requeues_self (h : c.Structured) : c.Requeues c where
  waiting := fun _ _ hn _ => hn
  bereft := by
    intro a b m he _ hdead
    obtain ⟨-, k, -, hk, -⟩ := h.live_of_edge he
    exact absurd hk (hdead k)

theorem Cuttable.queued_cut (hc : c.Cuttable s r root gone) (h : c.Structured)
    {m : Node State Tracked} (hm : c.graph.Live n m) (hkept : n ∉ gone)
    (hn : c.Queued n ∨ n ∈ Region.frontier c.graph gone) :
    (c.cut s r adjustment gone).Queued n := by
  have hm' : (c.cut s r adjustment gone).graph.Live n _ := live_cut_iff.2 ⟨m, hm, hkept, rfl⟩
  obtain ⟨q, -, -, -, -, hsets⟩ := sets_cut adjustment gone hc.set
  by_cases hs : s = m.set
  · subst hs
    have hq : (c.cut m.set r adjustment gone).sets[m.set]? = some q := by rw [hsets, if_pos rfl]
    have hwait : n ∈ r.waitlist ∨ n ∈ Region.frontier c.graph gone ∧ n ∈ r := by
      rcases hn with ⟨m₀, r₀, hm₀, hr₀, hn⟩ | hn
      · cases hm.unique hm₀
        cases Option.some.inj (hc.set.symm.trans hr₀)
        exact Or.inl hn
      · exact Or.inr ⟨hn, (h.mem_iff hc.set).2 ⟨m, hm, rfl⟩⟩
    exact ⟨_, q, hm', by rwa [Graph.set_cutOut], (mem_waitlist_cut hc.set hq hkept).2 hwait⟩
  · rcases hn with ⟨m₀, r₀, hm₀, hr₀, hn⟩ | hn
    · cases hm.unique hm₀
      have hq : (c.cut s r adjustment gone).sets[m.set]? = some r₀ := by
        rw [hsets, if_neg hs, hr₀]
      exact ⟨_, r₀, hm', by rwa [Graph.set_cutOut], hn⟩
    · exact absurd (hc.set_of_frontier h hn hm).symm hs

theorem Cuttable.requeues (hc : c.Cuttable s r root gone) (h : c.Structured)
    (adjustment : Adjustment Tracked) : c.Requeues (c.cut s r adjustment gone) := by
  constructor
  · intro n m' hn hm'
    obtain ⟨m, hm, hkept, -⟩ := live_cut_iff.1 hm'
    exact hc.queued_cut h hm hkept (Or.inl hn)
  · intro a b m' he hm' hdead
    obtain ⟨m, hm, hkept, -⟩ := live_cut_iff.1 hm'
    obtain ⟨-, mb, -, hmb, -⟩ := h.live_of_edge he
    have hb : b ∈ gone := by
      by_contra hb
      exact hdead _ (live_cut_iff.2 ⟨mb, hmb, hb, rfl⟩)
    refine hc.queued_cut h hm hkept (Or.inr ?_)
    exact Region.mem_frontier.2 ⟨hkept, b, hb, h.graph.edge_iff.1 he⟩

theorem Sheds.requeues (h : c.Structured) (st : c.Sheds s node c') : c.Requeues c' := by
  cases st with
  | none => exact h.requeues_self
  | @cut r root gone adjustment cache hc =>
    have hcut := hc.requeues h adjustment
    exact ⟨hcut.waiting, hcut.bereft⟩

theorem Structured.requeues_cacheSet (h : c.Structured) {K : Key} : c.Requeues (c.cacheSet K) := by
  have live : ∀ {n m}, c.graph.Live n m → (c.cacheSet K).graph.Live n m :=
    fun hm => live_addReachedSet_iff.2 (Or.inr hm)
  constructor
  · rintro n m' ⟨m, r, hm, hr, hn⟩ -
    refine ⟨m, r, live hm, ?_, hn⟩
    change (c.addReachedSet K.state K.precision).sets[m.set]? = some r
    rw [sets_addReachedSet, if_neg (Nat.ne_of_lt (h.set_lt hm)), hr]
  · intro a b m he _ hdead
    obtain ⟨-, k, -, hk, -⟩ := h.live_of_edge he
    exact absurd (live hk) (hdead k)

end Context

-- a node that lost its child earlier waits since then, one that loses it now waits from now on
theorem Context.Requeues.trans_of_shrinks {d' : Context} (h : c.Sound) (g : Shrinks c roots d)
    (ih : c.Requeues d) (st : d.Requeues d') (hback : ∀ {n m}, d'.graph.Live n m →
      d.graph.node? n = none ∨ ∃ m', d.graph.Live n m') : c.Requeues d' := by
  have back : ∀ {n m m'}, c.graph.node? n = some m → d'.graph.Live n m' →
      ∃ m', d.graph.Live n m' := by
    intro n m m' hm hm'
    obtain ⟨k, hk, -⟩ := (g.evolves h).node hm
    refine (hback hm').resolve_left ?_
    rw [hk]
    exact Option.some_ne_none k
  constructor
  · intro n m' hn hm'
    obtain ⟨m, -, hm, -⟩ := id hn
    obtain ⟨k, hk⟩ := back hm.1 hm'
    exact st.waiting n m' (ih.waiting n k hn hk) hm'
  · intro a b m' he hm' hdead
    obtain ⟨m, hm, -⟩ := id he
    obtain ⟨k, hk⟩ := back hm hm'
    by_cases hb : ∃ mb, d.graph.Live b mb
    · obtain ⟨mb, hmb⟩ := hb
      exact st.bereft a b m' (g.edge h he hmb) hm' hdead
    · exact st.waiting a m' (ih.bereft a b k he hk (not_exists.1 hb)) hm'

theorem Shrinks.requeues (h : c.Sound) (g : Shrinks c roots d) : c.Requeues d := by
  have removal : ∀ {roots d s node d'}, Shrinks c roots d → d.Sheds s node d' →
      c.Requeues d → c.Requeues d' := by
    intro roots d s node d' g rm ih
    refine ih.trans_of_shrinks h g (rm.requeues (g.sound h).toStructured) fun hm' => Or.inr ?_
    obtain ⟨m, hm, -⟩ := rm.live_before hm'
    exact ⟨m, hm⟩
  induction g with
  | start => exact h.toStructured.requeues_self
  | quiet _ _ _ ih => exact ⟨ih.waiting, ih.bereft⟩
  | forgetReturns _ _ ih => exact ⟨ih.waiting, ih.bereft⟩
  | forgetEntry _ _ ih => exact ⟨ih.waiting, ih.bereft⟩
  | @fresh roots d K g _ _ ih =>
    refine ih.trans_of_shrinks h g (g.sound h).toStructured.requeues_cacheSet fun hm' => ?_
    rcases live_addReachedSet_iff.1 hm' with ⟨rfl, -⟩ | hm
    · exact Or.inl (Graph.node?_size _)
    · exact Or.inr ⟨_, hm⟩
  | remove g rm ih => exact removal g rm ih
  | stale g _ _ rm ih => exact removal g rm ih

/-- No repair forgets what is to be explored, whatever its outcome: a surviving node that loses a
child waits in its reached set, and so does one that waited before. -/
theorem repair_requeues (m : Maintained program c) (shutdown : Shutdown) (fuel : Nat) (path : Path)
    (target : PathIndex) (increments : List (Increment Tracked)) :
    c.Requeues (finalState (repairPath fuel path target increments { c with shutdown })) := by
  have h := (m.agreed.withShutdown shutdown).toSound
  obtain ⟨roots, d, g, hd⟩ := repairPath_shrinks h fuel path target increments
  have requeues := g.requeues h
  rw [hd]
  exact ⟨requeues.waiting, requeues.bereft⟩

theorem relinking_requeues : Maintained Relinking.program Relinking.explored ∧
    (finalState (repairPath 100 Relinking.path 4 Relinking.increments
      { Relinking.explored with shutdown := .never })).Queued 1 := by
  have m : Maintained Relinking.program Relinking.explored :=
    .explored (.run (.start ..) Shutdown.never 100)
  have requeues := repair_requeues m .never 100 Relinking.path 4 Relinking.increments
  obtain ⟨d, hd⟩ : ∃ d, finalState (repairPath 100 Relinking.path 4 Relinking.increments
      { Relinking.explored with shutdown := .never }) = d := ⟨_, rfl⟩
  have hchild : (Relinking.explored.graph.node? 1).any (5 ∈ ·.children) = true := by decide +kernel
  have hlive : d.graph.isDestroyed 1 = false := by rw [← hd]; decide +kernel
  have hdead : d.graph.isDestroyed 5 = true := by rw [← hd]; decide +kernel
  rw [hd] at requeues ⊢
  have hedge : Relinking.explored.graph.Edge 1 5 := by
    simpa [Graph.Edge, Option.any_eq_true] using hchild
  obtain ⟨k, hk⟩ := Graph.isDestroyed_eq_false.1 hlive
  exact ⟨m, requeues.bereft 1 5 k hedge hk (Graph.dead_iff.2 hdead)⟩

/-! ### A second repair -/

theorem Links.prune_prune (destroyed : NodeId → Bool) (l : Links) :
    (l.prune destroyed).prune destroyed = l.prune destroyed := by
  simp [Links.prune, Table.filter, List.filter_filter]

theorem Context.Closed.mem_of_mostInner {gone : Set NodeId} (h : c.Closed roots gone)
    (hn : c.links.mostInner n ∈ gone) : n ∈ gone := by
  have follow : ∀ hops n, c.links.follow hops n ∈ gone → n ∈ gone := by
    intro hops
    induction hops with
    | zero => exact fun n hn => hn
    | succ hops ih =>
      intro n hn
      rw [Links.follow] at hn
      cases hx : c.links.reducedOf n with
      | none => rwa [hx] at hn
      | some x =>
        rw [hx] at hn
        exact h.expanded x n (ih x hn) hx
  exact follow _ n hn

theorem Links.mostInner_of_none {l : Links} (hn : l.reducedOf n = none) : l.mostInner n = n := by
  rw [mostInner, follow, hn]

theorem repairPath_of_destroyed {path : Path} {target : PathIndex}
    (hn : path.nodes[target]? = some n) (hlink : c.links.reducedOf n = none)
    (hdead : c.graph.isDestroyed n = true) (fuel : Nat) (increments : List (Increment Tracked)) :
    repairPath fuel path target increments c = .ok {} c.finishRepair := by
  have hstate : c.reachedState path target = .ok n := by
    rw [reachedState_of_node hn, Links.mostInner_of_none hlink]
  have hrun : repairTarget fuel path target increments c = .ok {} c := by
    rw [← ensures_eq_ok_iff]
    simp only [repairTarget, ensures_bind, ensures_get]
    rw [ensures_liftFault, hstate]
    refine ⟨fun t ht => ?_, fun _ hf => by cases hf⟩
    cases ht
    rw [if_pos hdead]
    exact ⟨rfl, rfl⟩
  rw [repairPath, hrun]

/-- A second repair for the same element of the path reports nothing and changes nothing but the
number of repairs. -/
theorem repair_twice (m : Maintained program c) (shutdown : Shutdown) {path : Path}
    {target : PathIndex} {fuel : Nat} {increments : List (Increment Tracked)} {report : Report}
    (hp : Path.toTarget c t = .ok path) (hpos : 0 < target) (hn : path.nodes[target]? = some n)
    (hr : repairPath fuel path target increments { c with shutdown } = .ok report c')
    (shutdown' : Shutdown) (fuel' : Nat) (increments' : List (Increment Tracked)) :
    repairPath fuel' path target increments' { c' with shutdown := shutdown' } =
      .ok {} { c' with
        shutdown := shutdown'
        statistics := { c'.statistics with repairs := c'.statistics.repairs + 1 } } := by
  rw [← Path.toTarget_withShutdown c shutdown] at hp
  have h := m.agreed.withShutdown shutdown
  obtain ⟨effect, -, hinner⟩ := repairPath_effect h hp hpos hn hr
  obtain ⟨roots, d, -, hd⟩ := repairPath_shrinks h.toSound fuel path target increments
  rw [hr] at hd
  have hd : c' = d.finishRepair := hd
  have hlost := effect.destroyed.1.mem_of_mostInner hinner
  have hlink : c'.links.reducedOf n = none := by
    refine Option.eq_none_iff_forall_ne_some.2 fun x hx => ?_
    exact ((effect.expanded n x).1 hx).2.1 hlost
  have hagain := repairPath_of_destroyed (c := { c' with shutdown := shutdown' }) hn hlink hlost.2
    fuel' increments'
  rw [hagain, hd]
  simp only [finishRepair, Links.prune_prune]

theorem relinking_repair_twice : ∃ report c',
    repairPath 100 Relinking.path 4 Relinking.increments
      { Relinking.explored with shutdown := .never } = .ok report c' ∧ report ≠ {} ∧
    repairPath 100 Relinking.path 4 [] { c' with shutdown := .never } =
      .ok {} { c' with
        shutdown := .never
        statistics := { c'.statistics with repairs := c'.statistics.repairs + 1 } } := by
  have m : Maintained Relinking.program Relinking.explored :=
    .explored (.run (.start ..) Shutdown.never 100)
  have hp : Path.toTarget Relinking.explored 10 = .ok Relinking.path := by decide +kernel
  have hn : Relinking.path.nodes[4]? = some 10 := by decide
  obtain ⟨report, hr⟩ := ok_of_value? (r := repairPath 100 Relinking.path 4 Relinking.increments
    { Relinking.explored with shutdown := .never }) (by decide +kernel)
  have hreport : report ≠ {} := by
    rintro rfl
    have hsome := congrArg value? hr
    revert hsome
    decide +kernel
  exact ⟨report, _, hr, hreport, repair_twice m .never hp (by decide) hn hr .never 100 []⟩

end Blockwise
