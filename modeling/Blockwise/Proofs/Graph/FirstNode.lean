import Blockwise.Proofs.Graph.Subtree

/-!
The first node of a reached set in a removal. It is never the root of one, but the removal does not
look at whether the first node would go as well: that happens where edges or covers lead back to it,
and only there.
-/
namespace Blockwise

open Relation (ReflTransGen)

namespace Region

section

variable {σ π : Type} [Precision π] {r r' : Region σ π} {adjustment : Adjustment π} {gone : IdSet}
  {node a : NodeId}

/-- Everything that is to go with `node` is in the set, and the first node is among it. -/
def TakesFirst (r : Region σ π) (node : NodeId) : Prop :=
  node ∈ r.reached ∧ ∃ root, removalRoot r.reached node = some root ∧
    (∀ a, ReflTransGen r.graph.Supports root a → a ∈ r.reached) ∧
    ReflTransGen r.graph.Supports root r.reached.first

def Holds (r : Region σ π) (a : NodeId) : Prop := (∃ n, r.graph.Live a n) ∧ a ∈ r.reached

theorem Removed.holds_iff (h : Removed adjustment gone r r') :
    r'.Holds a ↔ r.Holds a ∧ a ∉ gone := by
  have hlive : (∃ n, r'.graph.Live a n) ↔ (∃ n, r.graph.Live a n) ∧ a ∉ gone := by
    rw [← Graph.isDestroyed_eq_false, ← Graph.isDestroyed_eq_false, ← Bool.not_eq_true,
      ← Bool.not_eq_true, h.destroyed, not_or]
  rw [Holds, Holds, hlive, h.member]
  tauto

variable [DecidableEq π]

theorem removal_spares_first (hfirst : r.Holds r.reached.first) (hno : ¬ r.TakesFirst node) :
    Ensures (removeSubtree node adjustment) r (fun _ r' => r'.Holds r.reached.first)
      (fun _ r' => r'.Holds r.reached.first ∧ r' = r) := by
  obtain ⟨⟨f, hf⟩, -⟩ := id hfirst
  cases hplan : r.planRemoval node with
  | error fault =>
    refine (ensures_of_refused hplan).imp (fun _ _ => False.elim) fun _ r' hr' => ?_
    exact ⟨hr'.2 ▸ hfirst, hr'.2⟩
  | ok plan =>
    have hnode : node ∈ r.reached := by
      by_contra hout
      obtain ⟨fault, hfault⟩ := planRemoval_outside hout
      rw [hplan] at hfault
      cases hfault
    rcases planRemoval_spec hplan with ⟨rfl, -⟩ | ⟨root, gone, rfl, hroot, hgone⟩
    · refine (ensures_of_unplanned hplan).imp (fun _ r' hr' => ?_) fun _ _ => False.elim
      exact hr'.2 ▸ hfirst
    · have hspared : r.reached.first ∉ gone := by
        intro htaken
        apply hno
        refine ⟨hnode, root, hroot, fun a ha => ?_, (hgone.mem _).1 htaken⟩
        exact hgone.inside a ((hgone.mem a).2 ha)
      refine (ensures_of_spared hplan hf hspared).imp (fun _ r' hr' => ?_) fun _ _ => False.elim
      rw [hr'.1]
      exact (removed_applyRemoval adjustment gone r).holds_iff.2 ⟨hfirst, hspared⟩

theorem removal_takes_first (hw : r.graph.WellFormed)
    (hlive : ∀ a ∈ r.reached, ∃ n, r.graph.Live a n) (h : r.TakesFirst node) :
    Ensures (removeSubtree node adjustment) r (fun _ _ => False)
      (fun fault r' => fault = .destroyedNode r.reached.first ∧ ¬ r'.Holds r.reached.first) := by
  obtain ⟨hnode, root, hroot, hin, htaken⟩ := h
  obtain ⟨f, hf⟩ := hlive _ (hin _ htaken)
  rcases planRemoval_cases hw hlive hnode hroot (hin root .refl) with
    ⟨gone, hplan, hgone⟩ | ⟨a, ha, hforeign, -⟩
  · have hmem := (hgone.mem _).2 htaken
    have hremoved := removed_applyRemoval adjustment gone r
    have hdead := (hremoved.destroyed r.reached.first).2 (Or.inr hmem)
    rw [ensures_of_planned hplan hf]
    constructor
    · intro n' hn'
      rw [hn'.isDestroyed] at hdead
      cases hdead
    · intro fault hfault
      refine ⟨?_, fun hholds => (hremoved.holds_iff.1 hholds).2 hmem⟩
      -- a destroyed node is no unknown one, since its tombstone stays
      obtain ⟨n', hn', -⟩ := hremoved.node _ f hf.1
      rw [Graph.isDestroyed, hn'] at hdead
      have hdead : n'.destroyed = true := hdead
      simp only [Graph.liveNode, hn', hdead, if_true] at hfault
      cases hfault
      rfl
  · exact absurd (hin a ha) hforeign

end

section

variable {σ π : Type} [Precision π] [DecidableEq π]

/-- The first node survives a removal, and a failing removal changes nothing, unless the removal
takes the first node. -/
theorem first_survives_unless_taken (changes : List (GraphChange σ π)) {reached : ReachedSet}
    (hfirst : reached.first ∈ reached)
    (hlive : ∀ a ∈ reached, ∃ n, (Arena.after changes ∅).graph.Live a n) (node : NodeId)
    (adjustment : Adjustment π) :
    let r : Region σ π := ⟨(Arena.after changes ∅).graph, reached⟩
    (¬ r.TakesFirst node → Ensures (removeSubtree node adjustment) r
      (fun _ r' => r'.Holds reached.first) (fun _ r' => r'.Holds reached.first ∧ r' = r)) ∧
    (r.TakesFirst node → Ensures (removeSubtree node adjustment) r (fun _ _ => False)
      (fun fault r' => fault = .destroyedNode reached.first ∧ ¬ r'.Holds reached.first)) := by
  intro r
  have hw : r.graph.WellFormed := (Arena.sane_empty.after changes).1.wellFormed
  constructor
  · intro hno
    exact removal_spares_first (r := r) ⟨hlive _ hfirst, hfirst⟩ hno
  · intro htakes
    exact removal_takes_first (r := r) hw hlive htakes

end

namespace BackEdge

def changes : List (GraphChange Unit Tracked) :=
  [.addNode () ∅ 0, .addNode () ∅ 0, .addNode () ∅ 0, .addEdge 0 1, .addEdge 1 0, .addEdge 0 2]

def region : Region Unit Tracked :=
  ⟨(Arena.after changes ∅).graph, ((ReachedSet.start 0 0 .fifo).add 1).add 2⟩

theorem members_live : ∀ a ∈ region.reached, ∃ n, region.graph.Live a n := by
  have hdestroyed : ∀ a ∈ region.reached.nodes.toList, region.graph.isDestroyed a = false := by
    decide +kernel
  exact fun a ha => Graph.isDestroyed_eq_false.1 (hdestroyed a ha)

theorem taken_and_spared : region.reached.first ∈ region.reached ∧
    (∀ a ∈ region.reached, ∃ n, region.graph.Live a n) ∧
    Ensures (removeSubtree 1 .keep) region (fun _ _ => False)
      (fun fault r' => fault = .destroyedNode 0 ∧ ¬ r'.Holds 0) ∧
    Ensures (removeSubtree 2 .keep) region (fun _ r' => r'.Holds 0)
      (fun _ r' => r'.Holds 0 ∧ r' = region) := by
  have hgone : region.Gone 1 (.ofList [0, 1, 2]) := collectRemoved_gone (by decide +kernel)
  have hspared : region.Gone 2 (.ofList [2]) := collectRemoved_gone (by decide +kernel)
  have hfirst : region.reached.first ∈ region.reached := by decide
  have htakes : region.TakesFirst 1 :=
    ⟨by decide, 1, rfl, fun a ha => hgone.inside a ((hgone.mem a).2 ha),
      (hgone.mem 0).1 (by decide)⟩
  have hno : ¬ region.TakesFirst 2 := by
    rintro ⟨-, root, hroot, -, hreach⟩
    cases hroot
    exact absurd ((hspared.mem 0).2 hreach) (by decide)
  exact ⟨hfirst, members_live,
    (first_survives_unless_taken changes hfirst members_live 1 .keep).2 htakes,
    (first_survives_unless_taken changes hfirst members_live 2 .keep).1 hno⟩

theorem first_destroyed : region.reached.first ∈ region.reached ∧
    (∀ a ∈ region.reached, ∃ n, region.graph.Live a n) ∧
    error? (removeSubtree 1 .keep region) = some (.destroyedNode 0) ∧
    (finalState (removeSubtree 1 .keep region)).graph.isDestroyed 0 = true ∧
    0 ∉ (finalState (removeSubtree 1 .keep region)).reached :=
  ⟨by decide, members_live, by decide +kernel, by decide +kernel, by decide +kernel⟩

end BackEdge

end Region

end Blockwise
