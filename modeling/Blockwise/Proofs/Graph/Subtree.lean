import Blockwise.Proofs.Graph.Arena
import Blockwise.Proofs.Graph.Removal
import Blockwise.Value.State
import Mathlib.Order.Bounds.Basic

/-!
The removal of a subtree from any reached set in any well-formed graph. What goes is the least set
with the root of the removal that is closed under children and covered nodes. The removal refuses to
take a node from outside of the reached set, and then changes nothing.
-/
namespace Blockwise

open Relation (ReflTransGen)

namespace ReachedSet

variable {s : ReachedSet} {a : NodeId}

/-- The reached sets that the operations build. -/
inductive Assembled : ReachedSet → Prop
  | start (id : SetId) (first : NodeId) (order : WaitlistOrder) : Assembled (.start id first order)
  | add {s : ReachedSet} (h : Assembled s) (node : NodeId) : Assembled (s.add node)
  | addWithoutWaiting {s : ReachedSet} (h : Assembled s) (node : NodeId) :
      Assembled (s.addWithoutWaiting node)
  | reAdd {s : ReachedSet} (h : Assembled s) (node : NodeId) : Assembled (s.reAdd node)
  | pop {s : ReachedSet} (h : Assembled s) : Assembled s.pop.2
  | removeAll {s : ReachedSet} (h : Assembled s) (removed : IdSet) : Assembled (s.removeAll removed)

theorem Assembled.last_mem (h : s.Assembled) (ha : a ∈ s) : s.last ∈ s := by
  induction h generalizing a with
  | start id first order => exact mem_start.2 rfl
  | add h node ih => exact mem_add.2 (Or.inl rfl)
  | addWithoutWaiting h node ih => exact mem_addWithoutWaiting.2 (Or.inl rfl)
  | reAdd h node ih =>
    rw [last_reAdd, ← mem_nodes, nodes_reAdd]
    apply ih
    rwa [← mem_nodes, nodes_reAdd] at ha
  | pop h ih =>
    rw [last_pop, ← mem_nodes, nodes_pop]
    apply ih
    rwa [← mem_nodes, nodes_pop] at ha
  | @removeAll s h removed ih =>
    by_cases hgone : s.last ∈ removed
    · exact (last_removeAll_of_mem hgone ha).1
    · rw [last_removeAll_of_not_mem hgone]
      exact mem_removeAll.2 ⟨ih (mem_removeAll.1 ha).1, hgone⟩

end ReachedSet

namespace Graph

variable {σ π : Type} {g : Graph σ π} {root a : NodeId} {below : Set NodeId}

/-- `below` is the least set that holds `root` and, with a node, its children and the nodes that it
covers. -/
def Subtree (g : Graph σ π) (root : NodeId) (below : Set NodeId) : Prop :=
  IsLeast {s | root ∈ s ∧ ∀ a ∈ s, ∀ b, g.Edge a b ∨ g.Covers a b → b ∈ s} below

theorem subtree_iff : g.Subtree root below ↔ ∀ a, a ∈ below ↔ ReflTransGen g.Supports root a := by
  constructor
  · intro h a
    obtain ⟨⟨hroot, hclosed⟩, hleast⟩ := h
    constructor
    · intro ha
      refine hleast (a := {a | ReflTransGen g.Supports root a}) ⟨.refl, ?_⟩ ha
      intro b hb c hbc
      exact hb.tail hbc
    · intro ha
      induction ha with
      | refl => exact hroot
      | tail _ hab ih => exact hclosed _ ih _ hab
  · intro h
    refine ⟨⟨(h root).2 .refl, fun a ha b hab => (h b).2 (((h a).1 ha).tail hab)⟩, ?_⟩
    intro s hs a ha
    induction (h a).1 ha with
    | refl => exact hs.1
    | tail hb hbc ih => exact hs.2 _ (ih ((h _).2 hb)) _ hbc

theorem WellFormed.live_of_dependent (h : g.WellFormed) (hroot : ∃ n, g.Live root n)
    (ha : ReflTransGen g.Supports root a) : ∃ n, g.Live a n := by
  cases ha with
  | refl => exact hroot
  | tail _ hab => exact h.live_of_supports hab

/-- `a` survives, but a child of it is in `gone`. -/
def Borders (g : Graph σ π) (gone : IdSet) (a : NodeId) : Prop :=
  a ∉ gone ∧ ∃ b ∈ gone, g.Parent b a

end Graph

namespace Region

variable {σ π : Type} [Precision π] {r r' : Region σ π} {adjustment : Adjustment π} {gone : IdSet}
  {node root a : NodeId}

/-- What the removal of the nodes in `gone` makes of a region. -/
structure Removed (adjustment : Adjustment π) (gone : IdSet) (r r' : Region σ π) : Prop where
  destroyed : ∀ a, r'.graph.isDestroyed a = true ↔ r.graph.isDestroyed a = true ∨ a ∈ gone
  node : ∀ a n, r.graph.node? a = some n → ∃ n', r'.graph.node? a = some n' ∧
    n'.state = n.state ∧ n'.set = n.set ∧
    (r.graph.Borders gone a →
      n'.precision = (adjustment.newPrecision? n.precision).getD n.precision) ∧
    (¬ r.graph.Borders gone a → n'.precision = n.precision)
  edge : ∀ a b, r'.graph.Edge a b ↔ r.graph.Edge a b ∧ a ∉ gone ∧ b ∉ gone
  parent : ∀ a b, r'.graph.Parent b a ↔ r.graph.Parent b a ∧ a ∉ gone ∧ b ∉ gone
  covers : ∀ a b, r'.graph.Covers a b ↔ r.graph.Covers a b ∧ a ∉ gone ∧ b ∉ gone
  coveredBy : ∀ a b, r'.graph.CoveredBy b a ↔ r.graph.CoveredBy b a ∧ a ∉ gone ∧ b ∉ gone
  first : r'.reached.first = r.reached.first
  member : ∀ a, a ∈ r'.reached ↔ a ∈ r.reached ∧ a ∉ gone
  waitlist : ∃ again : List NodeId,
    r'.reached.waitlist = r.reached.waitlist.filter (· ∉ gone) ++ again ∧ again.Pairwise (· < ·) ∧
    ∀ a, a ∈ again ↔ r.graph.Borders gone a ∧ a ∈ r.reached ∧ a ∉ r.reached.waitlist

theorem removed_applyRemoval (adjustment : Adjustment π) (gone : IdSet) (r : Region σ π) :
    Removed adjustment gone r (applyRemoval adjustment ⟨gone, frontier r.graph gone⟩ r) := by
  have hcut : ∀ a, (applyRemoval adjustment ⟨gone, frontier r.graph gone⟩ r).graph.node? a =
      (r.graph.node? a).map
        (Graph.cutOut (· ∈ gone) (reprice adjustment (frontier r.graph gone)) a) :=
    node?_applyRemoval
  obtain ⟨again, hreached, hagain, hsub, -⟩ :=
    applyRemoval_reached adjustment ⟨gone, frontier r.graph gone⟩ r
  refine ⟨fun a => ?_, fun a n hn => ?_, fun a b => ?_, fun a b => ?_, fun a b => ?_, fun a b => ?_,
    first_applyRemoval, fun a => ?_, ?_⟩
  · unfold Graph.isDestroyed
    rw [hcut]
    cases r.graph.node? a <;> simp [or_comm]
  · refine ⟨_, by rw [hcut, hn]; rfl, Graph.state_cutOut, Graph.set_cutOut, fun hborder => ?_,
      fun hborder => ?_⟩
    · exact if_pos (mem_frontier.2 hborder)
    · exact if_neg fun ha => hborder (mem_frontier.1 ha)
  · simpa using Graph.edge_of_cutOut hcut (a := a) (b := b)
  · simpa using Graph.parent_of_cutOut hcut (a := a) (b := b)
  · simpa using Graph.covers_of_cutOut hcut (a := a) (b := b)
  · simpa using Graph.coveredBy_of_cutOut hcut (a := a) (b := b)
  · rw [hreached]
    exact ReachedSet.mem_removeAll
  · have hwait : (r.reached.removeAll gone).waitlist = r.reached.waitlist.filter (· ∉ gone) := rfl
    refine ⟨again, by rw [hreached, hwait], (frontier r.graph gone).sorted.sublist hsub,
      fun a => ?_⟩
    rw [hagain, mem_frontier, ReachedSet.mem_removeAll, hwait, List.mem_filter]
    constructor
    · rintro ⟨hborder, ⟨ha, hkept⟩, hnew⟩
      exact ⟨hborder, ha, fun hwaits => hnew ⟨hwaits, by simpa using hkept⟩⟩
    · rintro ⟨hborder, ha, hnew⟩
      exact ⟨hborder, ⟨ha, hborder.1⟩, fun hwaits => hnew hwaits.1⟩

/-! ### Which nodes go -/

section Plan

omit [Precision π]

theorem removalRoot_eq_some {s : ReachedSet} (h : node = s.first → s.last ≠ s.first) :
    removalRoot s node = some (if node = s.first ∧ s.last ≠ s.first then s.last else node) := by
  unfold removalRoot
  by_cases hn : node = s.first
  · simp [hn, h hn]
  · simp [hn]

theorem planRemoval_cases (hw : r.graph.WellFormed) (hlive : ∀ a ∈ r.reached, ∃ n, r.graph.Live a n)
    (hnode : node ∈ r.reached) (hroot : removalRoot r.reached node = some root)
    (hmem : root ∈ r.reached) :
    (∃ gone, r.planRemoval node = .ok (some ⟨gone, frontier r.graph gone⟩) ∧ r.Gone root gone) ∨
      ∃ a, ReflTransGen r.graph.Supports root a ∧ a ∉ r.reached ∧
        r.planRemoval node = .error (.notInReachedSet a r.reached.id) := by
  obtain ⟨n, hn⟩ := hlive node hnode
  have hplan := planRemoval_of_root hn hnode hroot
  rcases collectRemoved_cases (ReflTransGen r.graph.Supports root)
    (fun a ha => hw.live_of_dependent (hlive root hmem) ha) (fun a b ha hab => ha.tail hab)
    (r.graph.size + 1) (List.forall_mem_singleton.2 .refl) ∅ with
    ⟨gone, hgone⟩ | ⟨a, ha, hforeign, hrefused⟩
  · left
    rw [hgone] at hplan
    exact ⟨gone, hplan, collectRemoved_gone hgone⟩
  · right
    rw [hrefused] at hplan
    exact ⟨a, ha, hforeign, hplan⟩

theorem planRemoval_outside (hnode : node ∉ r.reached) :
    ∃ fault, r.planRemoval node = .error fault := by
  unfold planRemoval
  cases hn : r.graph.liveNode node with
  | error fault => exact ⟨fault, rfl⟩
  | ok n => exact ⟨.notInReachedSet node r.reached.id, by simp [hnode]; rfl⟩

end Plan

section

variable [DecidableEq π]

theorem ensures_of_refused {fault : Fault} (h : r.planRemoval node = .error fault) :
    Ensures (removeSubtree node adjustment) r (fun _ _ => False)
      (fun f r' => f = fault ∧ r' = r) := by
  simp only [removeSubtree, ensures_bind, ensures_get, h]
  exact ⟨rfl, rfl⟩

theorem ensures_of_unplanned (h : r.planRemoval node = .ok none) :
    Ensures (removeSubtree node adjustment) r (fun changed r' => changed = false ∧ r' = r)
      (fun _ _ => False) := by
  simp only [removeSubtree, ensures_bind, ensures_get, ensures_lift_of_ok h]
  exact ⟨rfl, rfl⟩

theorem ensures_of_lone_first (hnode : node ∈ r.reached) {n : Node σ π} (hn : r.graph.Live node n)
    (hfirst : node = r.reached.first) (hlast : r.reached.last = r.reached.first) :
    Ensures (removeSubtree node adjustment) r (fun changed r' => changed = false ∧ r' = r)
      (fun _ _ => False) := by
  apply ensures_of_unplanned
  have hroot : removalRoot r.reached node = none := by
    rw [removalRoot, if_pos hfirst, if_pos hlast]
  simp only [planRemoval, Graph.liveNode_eq_ok.2 hn, hnode, hroot, bind, Except.bind, pure,
    Except.pure, not_true_eq_false, if_false]

/-- The removal of a member takes away the subtree of the node, or of the last node in place of the
first, unless some of that is outside of the reached set. -/
theorem removal_of_member (hw : r.graph.WellFormed) (hs : r.reached.Assembled)
    (hfirst : r.reached.first ∈ r.reached) (hlive : ∀ a ∈ r.reached, ∃ n, r.graph.Live a n)
    (adjustment : Adjustment π) (hnode : node ∈ r.reached) {below : Set NodeId}
    (hbelow : r.graph.Subtree
      (if node = r.reached.first ∧ r.reached.last ≠ r.reached.first then r.reached.last else node)
      below) :
    ((∀ a ∈ below, a ∈ r.reached) → r.reached.first ∉ below →
      Ensures (removeSubtree node adjustment) r
        (fun changed r' => ∃ gone : IdSet, (∀ a, a ∈ gone ↔ a ∈ below) ∧
          Removed adjustment gone r r' ∧ ∃ n n', r.graph.Live r.reached.first n ∧
            r'.graph.Live r.reached.first n' ∧ (changed = true ↔ n'.precision ≠ n.precision))
        (fun _ _ => False)) ∧
    ((∃ a ∈ below, a ∉ r.reached) → (node = r.reached.first → r.reached.last ≠ r.reached.first) →
      Ensures (removeSubtree node adjustment) r (fun _ _ => False)
        (fun fault r' => r' = r ∧
          ∃ a ∈ below, a ∉ r.reached ∧ fault = .notInReachedSet a r.reached.id)) ∧
    (node = r.reached.first → r.reached.last = r.reached.first →
      Ensures (removeSubtree node adjustment) r (fun changed r' => changed = false ∧ r' = r)
        (fun _ _ => False)) := by
  obtain ⟨f, hf⟩ := hlive _ hfirst
  have hmb := Graph.subtree_iff.1 hbelow
  have hmem : (if node = r.reached.first ∧ r.reached.last ≠ r.reached.first then r.reached.last
      else node) ∈ r.reached := by
    split
    · exact hs.last_mem hnode
    · exact hnode
  refine ⟨fun hmembers hspared => ?_, fun hforeign hlast => ?_, fun hnf hlast => ?_⟩
  · have hlast : node = r.reached.first → r.reached.last ≠ r.reached.first := by
      intro hnf hlast
      apply hspared
      rw [hmb, if_neg fun h => h.2 hlast, hnf]
    rcases planRemoval_cases hw hlive hnode (removalRoot_eq_some hlast) hmem with
      ⟨gone, hplan, hgone⟩ | ⟨a, ha, houtside, -⟩
    · have hgb : ∀ a, a ∈ gone ↔ a ∈ below := fun a => (hgone.mem a).trans (hmb a).symm
      have hkept : r.reached.first ∉ gone := fun h => hspared ((hgb _).1 h)
      refine (ensures_of_spared hplan hf hkept).imp (fun changed r' hr' => ?_) fun _ _ => id
      obtain ⟨rfl, f', hf', rfl⟩ := hr'
      exact ⟨gone, hgb, removed_applyRemoval adjustment gone r, f, f', hf, hf', decide_eq_true_iff⟩
    · exact absurd (hmembers a ((hmb a).2 ha)) houtside
  · rcases planRemoval_cases hw hlive hnode (removalRoot_eq_some hlast) hmem with
      ⟨gone, -, hgone⟩ | ⟨a, ha, houtside, hrefused⟩
    · obtain ⟨a, ha, houtside⟩ := hforeign
      exact absurd (hgone.inside a ((hgone.mem a).2 ((hmb a).1 ha))) houtside
    · refine (ensures_of_refused hrefused).imp (fun _ _ => id) fun fault r' hr' => ?_
      exact ⟨hr'.2, a, (hmb a).2 ha, houtside, hr'.1⟩
  · obtain ⟨n, hn⟩ := hlive node hnode
    exact ensures_of_lone_first hnode hn hnf hlast

end

namespace CoveredLeaf

def changes : List (GraphChange Unit Tracked) :=
  [.addNode () ∅ 0, .addNode () ∅ 0, .addNode () ∅ 0, .addNode () ∅ 0, .addEdge 0 1, .addEdge 1 2,
    .addEdge 0 3, .cover 3 2]

def region : Region Unit Tracked where
  graph := (Arena.after changes ∅).graph
  reached := (((ReachedSet.start 0 0 .fifo).pop.2.add 1).add 2).addWithoutWaiting 3

def below : IdSet := .ofList [1, 2, 3]

theorem removed_below : region.graph.Subtree 1 {a | a ∈ below} ∧
    Ensures (removeSubtree 1 (.replace (.ofList ["x"]))) region
      (fun changed r' => ∃ gone : IdSet, (∀ a, a ∈ gone ↔ a ∈ below) ∧
        Removed (.replace (.ofList ["x"])) gone region r' ∧ ∃ n n', region.graph.Live 0 n ∧
          r'.graph.Live 0 n' ∧ (changed = true ↔ n'.precision ≠ n.precision))
      (fun _ _ => False) := by
  have hgone : region.Gone 1 below := collectRemoved_gone (by decide +kernel)
  have hbelow : region.graph.Subtree 1 {a | a ∈ below} := Graph.subtree_iff.2 hgone.mem
  have hw : region.graph.WellFormed := (Arena.sane_empty.after changes).1.wellFormed
  have hs : region.reached.Assembled :=
    .addWithoutWaiting (.add (.add (.pop (.start 0 0 .fifo)) 1) 2) 3
  have hdestroyed : ∀ a ∈ region.reached.nodes.toList, region.graph.isDestroyed a = false := by
    decide +kernel
  refine ⟨hbelow, ?_⟩
  have hmember : 1 ∈ region.reached := by decide
  exact (removal_of_member hw hs (by decide)
    (fun a ha => Graph.isDestroyed_eq_false.1 (hdestroyed a ha)) (.replace (.ofList ["x"]))
    hmember hbelow).1 (fun a ha => hgone.inside a ha) (by decide)

end CoveredLeaf

namespace LoneFirst

def changes : List (GraphChange Unit Tracked) := [.addNode () ∅ 0, .addNode () ∅ 1, .addEdge 0 1]

def region : Region Unit Tracked := ⟨(Arena.after changes ∅).graph, .start 0 0 .fifo⟩

/-- The removal of a first node that is the last one is no fault, although a node below it is in
another set. -/
theorem foreign_child_kept : region.graph.WellFormed ∧ region.reached.Assembled ∧
    region.reached.first ∈ region.reached ∧ (∀ a ∈ region.reached, ∃ n, region.graph.Live a n) ∧
    (∃ below, region.graph.Subtree 0 below ∧ ∃ a ∈ below, a ∉ region.reached) ∧
    (value? (removeSubtree 0 .keep region)) = some false := by
  have hdestroyed : ∀ a ∈ region.reached.nodes.toList, region.graph.isDestroyed a = false := by
    decide +kernel
  have hedge : region.graph.Edge 0 1 := ⟨_, rfl, by decide⟩
  exact ⟨(Arena.sane_empty.after changes).1.wellFormed, .start 0 0 .fifo, by decide,
    fun a ha => Graph.isDestroyed_eq_false.1 (hdestroyed a ha),
    ⟨{a | ReflTransGen region.graph.Supports 0 a}, Graph.subtree_iff.2 fun _ => Iff.rfl, 1,
      .single (Or.inl hedge), by decide⟩, by decide +kernel⟩

end LoneFirst

end Region

end Blockwise
