import Blockwise.Proofs.Repair.Nesting
import Blockwise.Proofs.Repair.Repairs

/-!
A repair whose pairs are nested reports no inconsistency. In a sound context a live node can be
removed from its reached set, whatever stands on it, and the keys and exits that the removal asks
for are there. So only the shutdown flag can stop the repair.
-/
namespace Blockwise

open Context

variable {c c' : Context} {s : SetId} {r : ReachedSet} {e x n y : NodeId}
  {m : Node State Tracked} {adjustment : Adjustment Tracked} {path : Path}

namespace Action

theorem removeSubtree_ok (h : c.Structured) (hm : c.graph.Live n m) (hn : ¬ c.Heads n)
    (adjustment : Adjustment Tracked) :
    Ensures (removeSubtree m.set n adjustment) c (fun _ _ => True) (fun _ _ => False) := by
  obtain ⟨r, hr, hmem⟩ := h.set_of_live hm
  have hne : n ≠ r.first := fun he => hn ⟨m.set, r, hr, he.symm⟩
  exact (h.fenced.removeSubtree_cuts hr hmem hne adjustment).imp (fun _ _ _ => trivial)
    (fun _ _ => id)

theorem removeSubtree_first (h : c.Structured) (hm : c.graph.Live n m) (hn : ¬ c.Heads n)
    (hr : c.sets[m.set]? = some r) (adjustment : Adjustment Tracked) :
    Ensures (removeSubtree m.set n adjustment) c
      (fun changed c' => changed = true → ∃ f, c'.graph.Live r.first f) (fun _ _ => False) := by
  refine ((removeSubtree_spec h hr).and (removeSubtree_ok h hm hn adjustment)).imp
    (fun changed c' hc' => ?_) fun _ _ hbad => hbad.2
  obtain ⟨⟨-, hno, -⟩ | ⟨_, _, -, -, -, _, f, -, hf, -⟩, -⟩ := hc'
  · intro hyes
    rw [hno] at hyes
    cases hyes
  · exact fun _ => ⟨f, hf⟩

theorem removeFromSet_ok (h : c.Structured) (hm : c.graph.Live n m) (hn : ¬ c.Heads n)
    (hr : c.sets[m.set]? = some r) (key : Option Key) (report : Report) :
    Ensures (removeFromSet m.set r.first key n adjustment report) c
      (fun _ _ => True) (fun _ _ => False) := by
  cases key with
  | none =>
    rw [ensures_removeFromSet_program]
    exact (removeSubtree_first h hm hn hr adjustment).imp (fun _ _ _ => trivial) fun _ _ => id
  | some K =>
    have hf : (c.forgetExits K).Structured := { h with }
    rw [ensures_removeFromSet_block]
    refine (removeSubtree_first hf hm hn hr adjustment).imp (fun changed d hd => ?_) fun _ _ => id
    refine ⟨fun hchanged => ?_, fun _ => trivial⟩
    obtain ⟨f, hf⟩ := hd hchanged
    exact (rekey_spec (c := d.countRemoval) hf _).imp (fun _ _ _ => trivial) fun _ _ => id

end Action

/-! ### Stale expansions -/

theorem removeStaleExpansions_halts (fuel : Nat) (work : StaleWork) (h : c.Sound) :
    Ensures (removeStaleExpansions fuel work) c (fun _ _ => True)
      (fun halt _ => halt = .outOfFuel) :=
  (removeStaleExpansions_prunes fuel work h.toStructured.fenced).imp (fun _ _ _ => trivial)
    fun _ _ hshort => hshort.1

theorem removeStaleExpansions_benign (fuel : Nat) (work : StaleWork) (h : c.Sound) :
    Ensures (removeStaleExpansions fuel work) c (fun _ _ => True) (fun halt _ => halt.Benign) :=
  (removeStaleExpansions_halts fuel work h).imp (fun _ _ => id) fun _ _ hhalt => by
    rw [hhalt]
    exact Halt.benign_outOfFuel

/-! ### Removals of a repair -/

theorem Context.Runs.answers (h : c.Sound) {outer : NodeId} (hr : c.Runs outer s)
    (hs : s ≠ .topLevel) : c.Answers outer s := by
  rcases hr with ⟨htop, -⟩ | hl
  · exact absurd htop hs
  · exact (h.call hl).answers

theorem Context.exists_storedKey (h : c.Sound) {outer : NodeId} (hr : c.Runs outer s)
    (hset : c.sets[s]? = some r) : ∃ key, c.storedKey outer s r.first = .ok key ∧
      ∀ K, key = some K → ∃ b, c.partitioning.block K.block = .ok b := by
  obtain ⟨f, hf, -⟩ := h.live_first hset
  unfold storedKey
  by_cases htop : s = .topLevel
  · rw [if_pos htop]
    exact ⟨none, rfl, by simp⟩
  · rw [if_neg htop]
    obtain ⟨mo, b, hmo, hb, -⟩ := hr.answers h htop
    have hblock := Partitioning.block_eq_ok_iff.2 hb
    simp only [reducedFor_eq_ok hmo hb, Graph.liveNode_eq_ok.2 hf, bind, Except.bind, pure,
      Except.pure]
    refine ⟨_, rfl, ?_⟩
    rintro K ⟨⟩
    exact ⟨b, hblock⟩

theorem Context.exists_removalAdjustment {key : Option Key} (hm : c.graph.Live n m)
    (hblock : ∀ K, key = some K → ∃ b, c.partitioning.block K.block = .ok b)
    (increments : List (Increment Tracked)) :
    ∃ adjustment, c.removalAdjustment key n increments = .ok adjustment := by
  unfold removalAdjustment
  split
  · exact ⟨_, rfl⟩
  · cases key with
    | none => simp [Graph.liveNode_eq_ok.2 hm, bind, Except.bind, pure, Except.pure]
    | some K =>
      obtain ⟨b, hb⟩ := hblock K rfl
      simp [Graph.liveNode_eq_ok.2 hm, hb, bind, Except.bind, pure, Except.pure]

theorem Context.exists_removal (h : c.Sound) {outer node : NodeId} (hr : c.Runs outer s)
    (hy : c.StandsFor s node y) (hm : c.graph.Live y m) (increments : List (Increment Tracked)) :
    m.set = s ∧ ∃ r key adjustment, c.Removal outer node increments s r y key adjustment := by
  obtain ⟨m', hm', rfl⟩ := hy.inside
  cases Option.some.inj (hm.1.symm.trans hm')
  obtain ⟨r, hset, -⟩ := h.set_of_live hm
  obtain ⟨key, hkey, hblock⟩ := exists_storedKey h hr hset
  obtain ⟨adjustment, hadjustment⟩ := exists_removalAdjustment hm hblock increments
  exact ⟨rfl, r, key, adjustment, hr.reachedSetFor h, hset, hy.nodeIn h, ⟨m, hm⟩, hkey, hadjustment⟩

theorem removeCachedSubtree_benign (h : c.Sound) (fuel : Nat) {outer node : NodeId}
    (hr : c.Runs outer s) (hy : c.StandsFor s node y) (increments : List (Increment Tracked))
    (report : Report) : Ensures (removeCachedSubtree fuel outer node increments report) c
      (fun _ _ => True) (fun halt _ => halt.Benign) := by
  cases hgone : c.graph.isDestroyed y with
  | true =>
    rw [ensures_of_ok (removeCachedSubtree_of_destroyed (hr.reachedSetFor h) (hy.nodeIn h) hgone)]
    trivial
  | false =>
    obtain ⟨m, hm⟩ := Graph.isDestroyed_eq_false.1 hgone
    obtain ⟨rfl, r, key, adjustment, hread⟩ := exists_removal h hr hy hm increments
    have hstands : c.Stands m.set key := hread.stands fun hl => (h.call hl).answers
    rw [hread.ensures]
    refine ((Action.removeFromSet_spec h.toStructured h.results hread.reached hstands report).and
      (Action.removeFromSet_ok h.toStructured hm hy.not_head hread.reached key report)).imp
        (fun report' d hd => ?_) fun _ _ hbad => hbad.2.elim
    exact removeStaleExpansions_benign fuel _ (hd.1.shrinks.sound h)

theorem Context.Sound.refinesAt_ok (h : c.Sound) (innermost : NodeId) (targetParents : IdSet)
    (inner : NodeId) : ∃ refines, c.refinesAt innermost targetParents inner = .ok refines := by
  unfold refinesAt
  split
  · exact ⟨true, rfl⟩
  · cases hl : c.links.setOfEntry inner with
    | none => exact ⟨false, rfl⟩
    | some t =>
      obtain ⟨-, -, r, -, -, -, -, hr, -⟩ := h.call hl
      simp only [reachedSet_eq_ok.2 hr, bind, Except.bind, pure, Except.pure]
      exact ⟨_, rfl⟩

theorem removePair_benign (h : c.Sound) (fuel : Nat) (innermost : NodeId) (targetParents : IdSet)
    (increments : List (Increment Tracked)) (report : Report) {pair : CallPair}
    (hp : c.Nested pair) :
    Ensures (removePair fuel innermost targetParents increments report pair) c
      (fun _ _ => True) (fun halt _ => halt.Benign) := by
  simp only [removePair, ensures_bind, ensures_liftAction]
  refine Action.poll_spec.imp (fun _ d hd => ?_) (fun _ _ hf => Halt.benign_fault (hf.1 ▸ rfl))
  obtain ⟨shutdown, rfl⟩ := hd
  have g : Shrinks c [] { c with shutdown } := Shrinks.start.quiet c.statistics shutdown
  obtain ⟨refines, hrefines⟩ := (g.sound h).refinesAt_ok innermost targetParents pair.2
  simp only [ensures_get]
  rw [ensures_liftFault, hrefines]
  refine ⟨?_, by simp⟩
  rintro _ ⟨⟩
  obtain ⟨s, y, hr, hy⟩ := g.nested h hp
  exact removeCachedSubtree_benign (g.sound h) fuel hr hy _ report

theorem removePairs_benign (h : c.Sound) (fuel : Nat) (innermost : NodeId)
    (targetParents : IdSet) (increments : List (Increment Tracked)) {pairs : List CallPair}
    (hp : ∀ pair ∈ pairs, c.Nested pair) (report : Report) :
    Ensures (pairs.foldlM (removePair fuel innermost targetParents increments) report) c
      (fun _ c' => ∃ roots, Shrinks c roots c') (fun halt _ => halt.Benign) := by
  refine Ensures.foldlM (I := fun rest _ d => (∀ pair ∈ rest, c.Nested pair) ∧
    ∃ roots, Shrinks c roots d) (fun pair rest report' d hI => ?_) ⟨hp, [], .start⟩ |>.imp
      (fun _ _ hd => hd.2) (fun _ _ => id)
  obtain ⟨hrest, roots, g⟩ := hI
  obtain ⟨hpair, hrest⟩ := List.forall_mem_cons.1 hrest
  refine ((removePair_spec (g.sound h) fuel innermost targetParents increments report' pair).and
    (removePair_benign (g.sound h) fuel innermost targetParents increments report'
      (g.nested h hpair))).imp (fun _ _ hd => ⟨hrest, ?_⟩) fun _ _ hbad => hbad.2
  obtain ⟨roots', g'⟩ := hd.1.shrinks
  exact ⟨_, g.trans g'⟩

theorem removePathEnd_ok (h : c.Sound) {t : NodeId} (hend : path.EndsAt t)
    (ht : c.StandsFor .topLevel t t) (report : Report) :
    Ensures (removePathEnd path report) c (fun _ _ => True) (fun _ _ => False) := by
  obtain ⟨element, helement, hnode⟩ := hend
  simp only [removePathEnd, ensures_bind, ensures_lift_of_ok helement, ensures_lift_of_ok hnode,
    ensures_get, ensures_ite, ensures_pure]
  refine ⟨fun _ => trivial, fun hlive => ?_⟩
  obtain ⟨m, hm⟩ := Graph.isDestroyed_eq_false.1 (by simpa using hlive)
  obtain ⟨m', hm', hset⟩ := ht.inside
  cases Option.some.inj (hm.1.symm.trans hm')
  have hok := Action.removeSubtree_ok h.toStructured hm ht.not_head .keep
  rwa [hset] at hok

/-- The scan for exact hits schedules only nested pairs, and fails only when it is interrupted. -/
def Context.ScansNested (c : Context) (path : Path) (target : PathIndex)
    (increments : List (Increment Tracked)) : Prop :=
  ∀ pairs report, (∀ pair ∈ pairs, c.Nested pair) →
    Ensures (Action.ensureExactHits path target increments pairs report) c
      (fun res _ => ∀ pair ∈ res.1, c.Nested pair) (fun fault _ => fault.isInconsistency = false)

theorem removeScheduled_benign (h : c.Sound) (fuel : Nat) {t last innermost : NodeId}
    {increments : List (Increment Tracked)} (hruns : c.Runs innermost s) (ht : c.StandsFor s t t)
    (hend : path.EndsAt last) (hlast : c.StandsFor .topLevel last last) {d : Context}
    (g : Shrinks c [] d) {pairs : List CallPair} (hp : ∀ pair ∈ pairs, c.Nested pair)
    (report : Report) : Ensures (removeScheduled fuel path t innermost increments pairs report) d
      (fun _ _ => True) (fun halt _ => halt.Benign) := by
  have hd := g.sound h
  obtain ⟨m, hm, -⟩ := (g.standsFor h ht).inside
  simp only [removeScheduled, ensures_bind, ensures_get]
  rw [ensures_liftFault_of_ok (Graph.node_eq_ok_iff.2 hm)]
  refine (removePairs_benign hd fuel innermost m.parents increments
    (fun pair hmem => g.nested h (hp pair hmem)) report).imp (fun r₁ d₁ hd₁ => ?_) (fun _ _ => id)
  obtain ⟨roots, g₁⟩ := hd₁
  rw [ensures_liftAction]
  refine Action.poll_spec.imp (fun _ d₂ hd₂ => ?_) (fun _ _ hf => Halt.benign_fault (hf.1 ▸ rfl))
  obtain ⟨shutdown, rfl⟩ := hd₂
  have g₂ : Shrinks c ([] ++ roots) { d₁ with shutdown } :=
    (g.trans g₁).quiet d₁.statistics shutdown
  refine ((removeCachedSubtree_spec (g₂.sound h) fuel innermost t increments r₁).and
    (removeCachedSubtree_benign (g₂.sound h) fuel (g₂.runs h hruns) (g₂.standsFor h ht) increments
      r₁)).imp (fun r₃ d₃ hd₃ => ?_) fun _ _ hbad => hbad.2
  obtain ⟨roots', g₃⟩ := hd₃.1.1.shrinks
  have g' := g₂.trans g₃
  rw [ensures_liftAction]
  exact (removePathEnd_ok (g'.sound h) hend (g'.standsFor h hlast) r₃).imp (fun _ _ => id)
    fun _ _ => False.elim

theorem removeTarget_benign (h : c.Sound) (fuel : Nat) {target : PathIndex} {t last : NodeId}
    {calls : List NodeId} {innermost : NodeId} {increments : List (Increment Tracked)}
    (hcalls : c.openCallNodes path target = .ok calls)
    (hchain : calls.IsChain fun outer inner => c.Nested (outer, inner))
    (hinner : calls.getLast? = some innermost) (hruns : c.Runs innermost s)
    (ht : c.StandsFor s t t) (hend : path.EndsAt last) (hlast : c.StandsFor .topLevel last last)
    (hscan : c.cache.aggressive = true → c.ScansNested path target increments) :
    Ensures (removeTarget fuel path target t increments) c
      (fun _ _ => True) (fun halt _ => halt.Benign) := by
  have hpairs : ∀ pair ∈ (calls.zip calls.tail).foldl schedule [], c.Nested pair := fun pair hp =>
    nested_of_mem_zip hchain ((mem_foldl_schedule.1 hp).resolve_left List.not_mem_nil)
  refine ensures_removeTarget
    (I := fun _ hits d => Shrinks c [] d ∧ ∀ pair ∈ hits.1, c.Nested pair) (fun fault hno => ?_)
    (fun hcalls' _ => ?_) (fun hcalls' hagg => ?_) fun {_ _ hits _} hcalls' hinner' hI => ?_
  · cases hcalls.symm.trans hno
  · cases hcalls.symm.trans hcalls'
    exact ⟨.start, hpairs⟩
  · cases hcalls.symm.trans hcalls'
    exact ((Action.ensureExactHits_spec h path target increments
      (pairsCall_zip (openCallNodes_call hcalls)) _).and (hscan hagg _ _ hpairs)).imp
        (fun _ _ hd => ⟨hd.1.1.1, hd.2⟩) fun _ _ hbad => Halt.benign_fault hbad.2
  · cases hcalls.symm.trans hcalls'
    cases hinner.symm.trans hinner'
    exact removeScheduled_benign h fuel hruns ht hend hlast hI.1 hI.2 hits.2

end Blockwise
