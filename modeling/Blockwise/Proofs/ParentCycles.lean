import Blockwise.Proofs.Graph.Arena
import Blockwise.Proofs.Paths
import Blockwise.Sample.TwoCalls

/-!
Paths in a graph that was put together by any changes, without links between its nodes. The edges
may run in cycles, also through the first parents of a node. Then there is no path, and this is the
only defect that a path to a live node can have.
-/
namespace Blockwise.Path

open Relation (ReflTransGen)

variable {c : Context} {n : NodeId}

theorem toTarget_of_no_links (hlinks : ∀ a, c.links.reducedOf a = none) (n : NodeId) :
    toTarget c n = ((ancestors c.graph n).map Path.mk).mapError .fault := by
  have hpart : part c c.links.exits.size = fun a => .ok [a] := by
    funext a
    simp only [part, hlinks a]
    rfl
  cases hchain : ancestors c.graph n with
  | error fault =>
    rw [toTarget, flatten, hchain]
    rfl
  | ok chain =>
    have hparts : chain.mapM (part c c.links.exits.size) = .ok (chain.map ([·])) := by
      rw [hpart]
      exact List.mapM_pure
    rw [toTarget, flatten_succ hchain hparts, ← List.flatMap_def,
      List.flatMap_singleton']
    rfl

/-- The climb by the first parents is endless exactly if the path is refused for a cycle. -/
theorem cycle_iff_endless_climb (changes : List (GraphChange State Tracked))
    (hgraph : c.graph = (Arena.after changes ∅).graph) (hlinks : ∀ a, c.links.reducedOf a = none)
    (hn : ∃ m, c.graph.Live n m) :
    ((∃ defect, toTarget c n = .error (.fault (.malformedPath defect)) ∧
        defect.text = "parents of #" ++ toString n ++ " form a cycle") ↔
      ∀ a, ReflTransGen c.graph.FirstParent n a → ∃ p, c.graph.Parent a p) ∧
    ((∃ a, ReflTransGen c.graph.FirstParent n a ∧ ∀ p, ¬ c.graph.Parent a p) →
      ∃ path, toTarget c n = .ok path ∧ c.graph.Lineage n path.nodes ∧ path.nodes.Nodup) := by
  have hw : c.graph.WellFormed := by
    rw [hgraph]
    exact (Arena.sane_empty.after changes).1.wellFormed
  have hpath := toTarget_of_no_links hlinks n
  rcases ancestors_cases hw hn with ⟨chain, hchain, heq⟩ | ⟨hno, heq⟩
  · obtain ⟨a, ha, hend⟩ := Graph.exists_lineage_iff.1 ⟨chain, hchain⟩
    rw [heq] at hpath
    refine ⟨⟨?_, fun hall => ?_⟩, fun _ => ⟨⟨chain⟩, hpath, hchain, hchain.nodup⟩⟩
    · rintro ⟨defect, herror, -⟩
      cases hpath.symm.trans herror
    · obtain ⟨p, hp⟩ := hall a ha
      exact absurd hp (hend p)
  · rw [heq] at hpath
    have hendless : ¬ ∃ a, ReflTransGen c.graph.FirstParent n a ∧ ∀ p, ¬ c.graph.Parent a p := by
      rw [← Graph.exists_lineage_iff]
      rintro ⟨chain, hchain⟩
      exact hno chain hchain
    refine ⟨⟨fun _ a ha => ?_, fun _ => ⟨.parentCycle n, hpath, rfl⟩⟩, fun h => absurd h hendless⟩
    by_contra hp
    exact hendless ⟨a, ha, not_exists.1 hp⟩

/-! ### A ring, and what is left of it without one of its nodes -/

namespace Ring

def changes : List (GraphChange State Tracked) :=
  [.addNode { location := 0 } ∅ 0, .addNode { location := 1 } ∅ 0, .addNode { location := 2 } ∅ 0,
    .addEdge 0 1, .addEdge 1 2, .addEdge 2 0]

def context (changes : List (GraphChange State Tracked)) : Context :=
  { Sample.start {} with graph := (Arena.after changes ∅).graph }

def closed : Context := context changes

def opened : Context := context (changes ++ [.destroy 0])

theorem closed_and_opened :
    (∀ a, ReflTransGen closed.graph.FirstParent 2 a → ∃ p, closed.graph.Parent a p) ∧
      ∃ path, toTarget opened 2 = .ok path ∧ opened.graph.Lineage 2 path.nodes ∧
        path.nodes.Nodup ∧ path.size = opened.graph.liveCount := by
  have hnoLinks : ∀ changes a, (context changes).links.reducedOf a = none := fun _ _ => rfl
  have hlive : ∃ m, closed.graph.Live 2 m := Graph.isDestroyed_eq_false.1 (by decide +kernel)
  have hlive' : ∃ m, opened.graph.Live 2 m := Graph.isDestroyed_eq_false.1 (by decide +kernel)
  have hrefused : toTarget closed 2 = .error (.fault (.malformedPath (.parentCycle 2))) := by
    decide +kernel
  have hfound : toTarget opened 2 = .ok ⟨[1, 2]⟩ := by decide +kernel
  -- above 2 stands 1, and nothing above 1
  have htop : ∃ a, ReflTransGen opened.graph.FirstParent 2 a ∧ ∀ p, ¬ opened.graph.Parent a p := by
    obtain ⟨m, hm⟩ := hlive'
    obtain ⟨k, hk⟩ : ∃ k, opened.graph.Live 1 k := Graph.isDestroyed_eq_false.1 (by decide +kernel)
    have hfirst : (opened.graph.node? 2).bind (·.parents.min?) = some 1 := by decide +kernel
    have hnone : (opened.graph.node? 1).bind (·.parents.min?) = none := by decide +kernel
    rw [hm.1, Option.bind_some] at hfirst
    rw [hk.1, Option.bind_some] at hnone
    exact ⟨1, .single (hm.first_parent hfirst), hk.no_parent hnone⟩
  obtain ⟨path, hpath, hchain, hnodup⟩ :=
    (cycle_iff_endless_climb (changes ++ [.destroy 0]) rfl (hnoLinks _) hlive').2 htop
  refine ⟨(cycle_iff_endless_climb changes rfl (hnoLinks _) hlive).1.1 ⟨_, hrefused, rfl⟩,
    path, hpath, hchain, hnodup, ?_⟩
  cases hfound.symm.trans hpath
  decide +kernel

end Ring

end Blockwise.Path
