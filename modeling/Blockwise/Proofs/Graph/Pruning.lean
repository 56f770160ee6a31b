import Blockwise.Proofs.Graph.Dependents

/-!
Graphs from which subtrees were cut. What goes is what depends on the listed roots in the graph as
it was before the first cut, also where the roots are cut one after the other.
-/
namespace Blockwise.Graph

open Relation (ReflTransGen)

variable {σ π : Type} {g g' g'' : Graph σ π} {roots roots' : List NodeId} {e a b : NodeId}
  {n n' : Node σ π}

/-- `a` is one of the roots, or stands on one through children and covered nodes. -/
def DependsOn (g : Graph σ π) (roots : List NodeId) (a : NodeId) : Prop :=
  ∃ e ∈ roots, ReflTransGen g.Supports e a

theorem DependsOn.support (h : g.DependsOn roots a) (hab : g.Supports a b) :
    g.DependsOn roots b := by
  obtain ⟨e, he, hea⟩ := h
  exact ⟨e, he, hea.tail hab⟩

/-- The subtrees of the roots are destroyed, and the other nodes keep what is left of their edges
and covers. -/
structure Pruned (g : Graph σ π) (roots : List NodeId) (g' : Graph σ π) : Prop where
  destroyed : ∀ a, g'.isDestroyed a = true ↔ g.isDestroyed a = true ∨ g.DependsOn roots a
  set : ∀ a, (g'.node? a).map Node.set = (g.node? a).map Node.set
  edge : ∀ a b, g'.Edge a b ↔ g.Edge a b ∧ ¬ g.DependsOn roots b
  covers : ∀ a b, g'.Covers a b ↔ g.Covers a b ∧ ¬ g.DependsOn roots b

namespace Pruned

theorem refl (g : Graph σ π) : g.Pruned [] g where
  destroyed := by simp [DependsOn]
  set := fun _ => rfl
  edge := by simp [DependsOn]
  covers := by simp [DependsOn]

variable (h : g.Pruned roots g')

include h

theorem supports (a b : NodeId) : g'.Supports a b ↔ g.Supports a b ∧ ¬ g.DependsOn roots b := by
  rw [Supports, Supports, h.edge, h.covers, or_and_right]

theorem reaches_iff (ha : ¬ g.DependsOn roots a) :
    ReflTransGen g'.Supports e a ↔ ReflTransGen g.Supports e a := by
  constructor
  · exact ReflTransGen.mono (fun a b hab => ((h.supports a b).1 hab).1) e a
  · intro hea
    induction hea with
    | refl => exact .refl
    | tail _ hbc ih =>
      exact (ih fun hb => ha (hb.support hbc)).tail ((h.supports _ _).2 ⟨hbc, ha⟩)

theorem dependsOn_append :
    g.DependsOn (roots ++ roots') a ↔ g.DependsOn roots a ∨ g'.DependsOn roots' a := by
  have hsplit : g.DependsOn (roots ++ roots') a ↔ g.DependsOn roots a ∨ g.DependsOn roots' a := by
    simp only [DependsOn, List.mem_append, or_and_right, exists_or]
  rw [hsplit]
  by_cases ha : g.DependsOn roots a
  · simp [ha]
  · simp only [DependsOn, h.reaches_iff ha]

theorem trans (h' : g'.Pruned roots' g'') : g.Pruned (roots ++ roots') g'' where
  destroyed := by
    intro a
    rw [h'.destroyed, h.destroyed, h.dependsOn_append, or_assoc]
  set := fun a => (h'.set a).trans (h.set a)
  edge := by
    intro a b
    rw [h'.edge, h.edge, h.dependsOn_append, not_or, and_assoc]
  covers := by
    intro a b
    rw [h'.covers, h.covers, h.dependsOn_append, not_or, and_assoc]

theorem node_before (hn' : g'.node? a = some n') : ∃ n, g.node? a = some n ∧ n.set = n'.set := by
  have hset := h.set a
  rw [hn', Option.map_some] at hset
  exact Option.map_eq_some_iff.1 hset.symm

theorem node_after (hn : g.node? a = some n) : ∃ n', g'.node? a = some n' ∧ n'.set = n.set := by
  have hset := h.set a
  rw [hn, Option.map_some] at hset
  exact Option.map_eq_some_iff.1 hset

theorem live (ha : g'.Live a n') : ∃ n, g.Live a n ∧ n.set = n'.set ∧ ¬ g.DependsOn roots a := by
  have hd : ¬ g'.isDestroyed a = true := by simp [ha.isDestroyed]
  rw [h.destroyed, not_or, Bool.not_eq_true, isDestroyed_eq_false] at hd
  obtain ⟨⟨n, hn⟩, hdep⟩ := hd
  obtain ⟨n₀, hn₀, hset⟩ := h.node_before ha.1
  cases Option.some.inj (hn.1.symm.trans hn₀)
  exact ⟨n, hn, hset, hdep⟩

theorem dependsOn_of_lost (ha : g.Live a n) (hlost : ∀ n', ¬ g'.Live a n') :
    g.DependsOn roots a := by
  refine ((h.destroyed a).1 (dead_iff.1 hlost)).resolve_left ?_
  simp [ha.isDestroyed]

theorem edge_of_live (hab : g.Edge a b) (hb : g'.Live b n') : g'.Edge a b := by
  obtain ⟨-, -, -, hdep⟩ := h.live hb
  exact (h.edge a b).2 ⟨hab, hdep⟩

theorem liveCount_lt (he : g.Live e n) (hroot : e ∈ roots) : g'.liveCount < g.liveCount := by
  have hgone : e ∉ g'.liveIds := by
    intro hlive
    obtain ⟨n', hn'⟩ := mem_liveIds.1 hlive
    obtain ⟨-, -, -, hdep⟩ := h.live hn'
    exact hdep ⟨e, hroot, .refl⟩
  rw [← length_liveIds g']
  refine length_le_liveCount (List.nodup_cons.2 ⟨hgone, g'.nodup_liveIds⟩) fun a ha => ?_
  rcases List.mem_cons.1 ha with rfl | ha
  · exact ⟨n, he⟩
  · obtain ⟨n', hn'⟩ := mem_liveIds.1 ha
    obtain ⟨n, hn, -⟩ := h.live hn'
    exact ⟨n, hn⟩

end Pruned

end Blockwise.Graph
