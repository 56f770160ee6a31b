import Blockwise.Proofs.Graph.Dependents
import Blockwise.Proofs.Outcome

/-!
What the removal of a subtree leaves. Either nothing changes, or the nodes that depend on the root
of the removal are cut out, and the frontier waits again. The first node of the set stays.
-/
namespace Blockwise

open Relation (ReflTransGen)

namespace Region

variable {σ π : Type} {r r' : Region σ π}

structure Rooted (r : Region σ π) : Prop where
  graph : r.graph.WellFormed
  first : ∃ n, r.graph.Live r.reached.first n ∧ n.parents = ∅ ∧ n.coveredBy = none

/-- The nodes in `gone` are those that depend on `root`, and all of them are in the set. -/
structure Gone (r : Region σ π) (root : NodeId) (gone : IdSet) : Prop where
  mem : ∀ a, a ∈ gone ↔ ReflTransGen r.graph.Supports root a
  inside : ∀ a ∈ gone, a ∈ r.reached

theorem collectRemoved_gone {root : NodeId} {gone : IdSet}
    (h : r.collectRemoved (r.graph.size + 1) [root] ∅ = .ok gone) : r.Gone root gone := by
  obtain ⟨hmem, hin⟩ := collectRemoved_spec h (by rw [unmarked_empty]; exact Nat.lt_succ_self _)
    (.init _ _) fun a ha => absurd ha (SortedSet.not_mem_empty a)
  exact ⟨hmem, hin⟩

theorem Rooted.not_supports_first (h : r.Rooted) {a : NodeId} :
    ¬ r.graph.Supports a r.reached.first := by
  obtain ⟨n, hn, hp, hc⟩ := h.first
  rintro (ha | ha)
  · obtain ⟨m, hm, hma⟩ := h.graph.edge_iff.1 ha
    rw [Option.some.inj (hm.symm.trans hn.1), hp] at hma
    exact SortedSet.not_mem_empty a hma
  · obtain ⟨m, hm, hma⟩ := h.graph.covers_iff.1 ha
    rw [Option.some.inj (hm.symm.trans hn.1), hc] at hma
    cases hma

theorem Rooted.first_not_mem (h : r.Rooted) {root : NodeId} {gone : IdSet} (hg : r.Gone root gone)
    (hne : root ≠ r.reached.first) : r.reached.first ∉ gone := by
  intro hmem
  rcases Relation.ReflTransGen.cases_tail ((hg.mem _).1 hmem) with he | ⟨a, -, ha⟩
  · exact hne he.symm
  · exact h.not_supports_first ha

theorem planRemoval_spec {node : NodeId} {plan : Option RemovalPlan}
    (h : r.planRemoval node = .ok plan) :
    (plan = none ∧ removalRoot r.reached node = none) ∨
      ∃ root gone, plan = some ⟨gone, frontier r.graph gone⟩ ∧
        removalRoot r.reached node = some root ∧ r.Gone root gone := by
  unfold planRemoval at h
  cases hn : r.graph.liveNode node with
  | error f => simp [hn, bind, Except.bind] at h
  | ok n =>
    rw [hn] at h
    by_cases hm : node ∈ r.reached
    · cases hroot : removalRoot r.reached node with
      | none =>
        simp [hm, hroot, bind, Except.bind, pure, Except.pure] at h
        exact Or.inl ⟨h.symm, rfl⟩
      | some root =>
        cases hc : r.collectRemoved (r.graph.size + 1) [root] ∅ with
        | error f => simp [hm, hroot, hc, bind, Except.bind] at h
        | ok gone =>
          simp [hm, hroot, hc, bind, Except.bind, pure, Except.pure] at h
          exact Or.inr ⟨root, gone, h.symm, rfl, collectRemoved_gone hc⟩
    · simp [hm, bind, Except.bind, throw, throwThe, MonadExceptOf.throw] at h

theorem planRemoval_of_root {node root : NodeId} {n : Node σ π} (hn : r.graph.Live node n)
    (hnode : node ∈ r.reached) (hroot : removalRoot r.reached node = some root) :
    r.planRemoval node = (r.collectRemoved (r.graph.size + 1) [root] ∅).map
      fun gone => some ⟨gone, frontier r.graph gone⟩ := by
  simp only [planRemoval, Graph.liveNode_eq_ok.2 hn, hnode, hroot, bind, Except.bind, pure,
    Except.pure, not_true_eq_false, if_false]
  cases r.collectRemoved (r.graph.size + 1) [root] ∅ <;> rfl

theorem firstPrecision_eq_ok {n : Node σ π} (h : r.graph.Live r.reached.first n) :
    r.firstPrecision = .ok n.precision := by
  rw [firstPrecision, Graph.liveNode_eq_ok.2 h]
  rfl

theorem removalRoot_ne_first {s : ReachedSet} {node root : NodeId}
    (h : removalRoot s node = some root) : root ≠ s.first := by
  unfold removalRoot at h
  grind

theorem mem_frontier {g : Graph σ π} {gone : IdSet} {a : NodeId} :
    a ∈ frontier g gone ↔ a ∉ gone ∧ ∃ b ∈ gone, g.Parent b a := by
  simp only [frontier, SortedSet.mem_ofList, List.mem_flatMap, SortedSet.mem_toList, Graph.Parent]
  constructor
  · rintro ⟨b, hb, ha⟩
    cases hg : g.node? b with
    | none => simp [hg] at ha
    | some n =>
      rw [hg] at ha
      obtain ⟨ha, hgone⟩ := SortedSet.mem_diff.1 ha
      exact ⟨hgone, b, hb, n, hg, ha⟩
  · rintro ⟨hgone, b, hb, n, hn, ha⟩
    exact ⟨b, hb, by rw [hn]; exact SortedSet.mem_diff.2 ⟨ha, hgone⟩⟩

variable [Precision π]

def reprice (adjustment : Adjustment π) (waits : IdSet) (id : NodeId) (p : π) : π :=
  if id ∈ waits then (adjustment.newPrecision? p).getD p else p

theorem node?_foldl_reopen {adjustment : Adjustment π} {l : List NodeId} (hl : l.Nodup)
    (id : NodeId) : (l.foldl (reopen adjustment) r).graph.node? id =
      (r.graph.node? id).map fun n => { n with
        precision := if id ∈ l then (adjustment.newPrecision? n.precision).getD n.precision
          else n.precision } := by
  induction l generalizing r with
  | nil => cases hn : r.graph.node? id <;> simp [hn]
  | cons a l ih =>
    obtain ⟨ha, hl⟩ := List.nodup_cons.1 hl
    rw [List.foldl_cons, ih hl, reopen]
    by_cases h : a = id
    · subst h
      cases hn : r.graph.node? a <;> simp [ha, hn]
    · have h' : ¬ id = a := fun e => h e.symm
      simp [h, h']

theorem foldl_reopen_reached {adjustment : Adjustment π} (l : List NodeId) :
    (l.foldl (reopen adjustment) r).reached = l.foldl (fun s n => s.reAdd n) r.reached := by
  induction l generalizing r with
  | nil => rfl
  | cons a l ih => rw [List.foldl_cons, ih]; rfl

end Region

namespace ReachedSet

theorem foldl_reAdd_spec (l : List NodeId) (s : ReachedSet) :
    ∃ more, l.foldl (fun s n => s.reAdd n) s = { s with waitlist := s.waitlist ++ more } ∧
      (∀ n, n ∈ more ↔ n ∈ l ∧ n ∈ s ∧ n ∉ s.waitlist) ∧ List.Sublist more l ∧
      (s.waitlist.Nodup → (s.waitlist ++ more).Nodup) := by
  induction l generalizing s with
  | nil => exact ⟨[], by simp, by simp, .slnil, by simp⟩
  | cons a l ih =>
    rw [List.foldl_cons, reAdd]
    split
    · rename_i h
      obtain ⟨more, hs, hm, hsub, hn⟩ := ih { s with waitlist := s.waitlist ++ [a] }
      refine ⟨a :: more, by simpa using hs, ?_, hsub.cons_cons a, ?_⟩
      · intro n
        have hn' := hm n
        change n ∈ more ↔ n ∈ l ∧ n ∈ s ∧ n ∉ s.waitlist ++ [a] at hn'
        grind
      · intro hnd
        have := hn (by simpa [List.nodup_append] using ⟨hnd, fun b hb e => h.2 (e ▸ hb)⟩)
        simpa using this
    · rename_i h
      obtain ⟨more, hs, hm, hsub, hn⟩ := ih s
      refine ⟨more, hs, ?_, hsub.cons a, hn⟩
      intro n
      rw [hm n]
      grind

theorem last_removeAll_of_mem {s : ReachedSet} {gone : IdSet} {a : NodeId} (hgone : s.last ∈ gone)
    (ha : a ∈ s.removeAll gone) : (s.removeAll gone).last ∈ s.removeAll gone ∧
      ∀ n ∈ s.removeAll gone, n ≤ (s.removeAll gone).last := by
  obtain ⟨k, hk⟩ := Option.isSome_iff_exists.1 (SortedSet.max?_isSome ha)
  obtain ⟨hmem, hmax⟩ := SortedSet.max?_spec hk
  have hlast : (s.removeAll gone).last = k := by
    have hk : (s.nodes.diff gone).max? = some k := hk
    simp [removeAll, hgone, hk]
  rw [hlast]
  exact ⟨hmem, fun n hn => (hmax n hn).elim Nat.le_of_eq Nat.le_of_lt⟩

theorem last_removeAll_of_not_mem {s : ReachedSet} {gone : IdSet} (hkept : s.last ∉ gone) :
    (s.removeAll gone).last = s.last :=
  if_neg hkept

end ReachedSet

theorem IdSet.nodup (s : IdSet) : s.toList.Nodup := s.sorted.imp fun h => Nat.ne_of_lt h

namespace Region

variable {σ π : Type} [Precision π] {r r' : Region σ π} {adjustment : Adjustment π}
  {plan : RemovalPlan}

theorem node?_applyRemoval (id : NodeId) : (applyRemoval adjustment plan r).graph.node? id =
    (r.graph.node? id).map
      (Graph.cutOut (· ∈ plan.removed) (reprice adjustment plan.frontier) id) := by
  rw [applyRemoval, node?_foldl_reopen (IdSet.nodup _), Graph.node?_foldl_remove, Option.map_map]
  congr 1
  funext n
  have hp : (Graph.pruned (· ∈ plan.removed) id n).precision = n.precision := by
    by_cases h : id ∈ plan.removed <;> simp [Graph.pruned, h, Node.bury]
  simp [Graph.cutOut, reprice, hp]

theorem applyRemoval_reached (adjustment : Adjustment π) (plan : RemovalPlan) (r : Region σ π) :
    ∃ more, (applyRemoval adjustment plan r).reached =
      { r.reached.removeAll plan.removed with
        waitlist := (r.reached.removeAll plan.removed).waitlist ++ more } ∧
      (∀ n, n ∈ more ↔ n ∈ plan.frontier ∧ n ∈ r.reached.removeAll plan.removed ∧
        n ∉ (r.reached.removeAll plan.removed).waitlist) ∧ List.Sublist more plan.frontier.toList ∧
      (r.reached.waitlist.Nodup →
        ((r.reached.removeAll plan.removed).waitlist ++ more).Nodup) := by
  obtain ⟨more, h₁, h₂, hsub, h₃⟩ :=
    ReachedSet.foldl_reAdd_spec plan.frontier.toList (r.reached.removeAll plan.removed)
  refine ⟨more, ?_, h₂, hsub, fun h => h₃ (h.filter _)⟩
  rw [applyRemoval, foldl_reopen_reached]
  exact h₁

theorem first_applyRemoval : (applyRemoval adjustment plan r).reached.first = r.reached.first := by
  obtain ⟨more, hm, -⟩ := applyRemoval_reached adjustment plan r
  rw [hm]
  rfl

variable [DecidableEq π]

theorem ensures_of_planned {node : NodeId} {n : Node σ π} {ok : Bool → Region σ π → Prop}
    {bad : Fault → Region σ π → Prop} (h : r.planRemoval node = .ok (some plan))
    (hn : r.graph.Live r.reached.first n) : Ensures (removeSubtree node adjustment) r ok bad ↔
      (∀ n', (applyRemoval adjustment plan r).graph.Live r.reached.first n' →
        ok (decide (n'.precision ≠ n.precision)) (applyRemoval adjustment plan r)) ∧
      ∀ fault, (applyRemoval adjustment plan r).graph.liveNode r.reached.first = .error fault →
        bad fault (applyRemoval adjustment plan r) := by
  simp only [removeSubtree, ensures_bind, ensures_get, ensures_lift_of_ok h,
    ensures_lift_of_ok (firstPrecision_eq_ok hn), ensures_modify, ensures_pure]
  rw [ensures_liftExcept, firstPrecision, first_applyRemoval]
  cases hf : (applyRemoval adjustment plan r).graph.liveNode r.reached.first with
  | error fault => simp [bind, Except.bind, ← Graph.liveNode_eq_ok, hf]
  | ok n' => simp [bind, Except.bind, pure, Except.pure, ← Graph.liveNode_eq_ok, hf]

theorem ensures_of_spared {node : NodeId} {n : Node σ π}
    (h : r.planRemoval node = .ok (some plan)) (hn : r.graph.Live r.reached.first n)
    (hfirst : r.reached.first ∉ plan.removed) : Ensures (removeSubtree node adjustment) r
      (fun changed r' => r' = applyRemoval adjustment plan r ∧
        ∃ n', r'.graph.Live r.reached.first n' ∧ changed = decide (n'.precision ≠ n.precision))
      (fun _ _ => False) := by
  have hkept : (applyRemoval adjustment plan r).graph.Live r.reached.first _ :=
    (Graph.live_of_cutOut node?_applyRemoval).2 ⟨n, hn, by simpa using hfirst, rfl⟩
  rw [ensures_of_planned h hn]
  constructor
  · intro n' hn'
    exact ⟨rfl, n', hn', rfl⟩
  · intro fault hfault
    rw [Graph.liveNode_eq_ok.2 hkept] at hfault
    cases hfault

theorem maintains_removeSubtree {P : Region σ π → Prop}
    (hP : ∀ plan r, P r → P (applyRemoval adjustment plan r)) (node : NodeId) :
    Maintains P (removeSubtree node adjustment) := by
  refine Maintains.get.bind fun r => (Maintains.lift _).bind fun plan => ?_
  cases plan with
  | none => exact .pure _
  | some plan =>
    refine Maintains.get.bind fun r => (Maintains.lift _).bind fun before => ?_
    refine (Maintains.modify (hP plan)).bind fun _ => ?_
    exact Maintains.get.bind fun r => (Maintains.lift _).bind fun after => .pure _

theorem removeSubtree_spec (h : r.Rooted) (node : NodeId) (adjustment : Adjustment π) :
    Ensures (removeSubtree node adjustment) r
      (fun changed r' =>
        (removalRoot r.reached node = none ∧ changed = false ∧ r' = r) ∨
        ∃ root gone, removalRoot r.reached node = some root ∧ r.Gone root gone ∧
          r' = applyRemoval adjustment ⟨gone, frontier r.graph gone⟩ r ∧
          ∃ n n', r.graph.Live r.reached.first n ∧ r'.graph.Live r.reached.first n' ∧
            changed = decide (n'.precision ≠ n.precision))
      (fun _ r' => r' = r) := by
  cases hplan : r.planRemoval node with
  | error fault =>
    simp only [removeSubtree, ensures_bind, ensures_get, hplan]
    exact rfl
  | ok plan =>
    rcases planRemoval_spec hplan with ⟨rfl, hroot⟩ | ⟨root, gone, rfl, hroot, hgone⟩
    · simp only [removeSubtree, ensures_bind, ensures_get, ensures_lift_of_ok hplan]
      exact Or.inl ⟨hroot, rfl, rfl⟩
    · obtain ⟨n, hn, -⟩ := h.first
      have hkept := h.first_not_mem hgone (removalRoot_ne_first hroot)
      refine (ensures_of_spared hplan hn hkept).imp (fun changed r' hr' => ?_)
        fun _ _ => False.elim
      obtain ⟨rfl, n', hn', hchanged⟩ := hr'
      exact Or.inr ⟨root, gone, hroot, hgone, rfl, n, n', hn, hn', hchanged⟩

theorem removeSubtree_ok (h : r.Rooted) (hlive : ∀ a ∈ r.reached, ∃ n, r.graph.Live a n)
    (hclosed : ∀ a ∈ r.reached, ∀ b, r.graph.Supports a b → b ∈ r.reached) {node : NodeId}
    (hnode : node ∈ r.reached) (hne : node ≠ r.reached.first) (adjustment : Adjustment π) :
    Ensures (removeSubtree node adjustment) r (fun _ _ => True) (fun _ _ => False) := by
  obtain ⟨m, hm⟩ := hlive node hnode
  obtain ⟨gone, hgone⟩ := collectRemoved_ok hlive hclosed (r.graph.size + 1)
    (List.forall_mem_singleton.2 hnode) ∅
  have hplan := planRemoval_of_root hm hnode (if_neg hne)
  rw [hgone] at hplan
  obtain ⟨n, hn, -⟩ := h.first
  have hkept := h.first_not_mem (collectRemoved_gone hgone) hne
  exact (ensures_of_spared hplan hn hkept).imp (fun _ _ _ => trivial) fun _ _ => id

end Region

end Blockwise
