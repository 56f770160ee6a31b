import Blockwise.Proofs.Graph.Arena
import Blockwise.Proofs.Repair.StaleWork
import Blockwise.Sample.TwoCalls

/-!
Stale expansions are removed completely. A reached set may be linked to call nodes of its own, and
then it becomes pending again while its call nodes are worked on. What is destroyed depends on the
expansions that the report lists, in the graph as it was at the beginning.
-/
namespace Blockwise

open Context
open Relation (ReflTransGen)

variable {c : Context} {s : SetId}

/-- One unit of fuel for each live node and one more are enough. -/
theorem stale_expansions_removed (h : c.Fenced) (ha : c.Attributed)
    (hs : ∀ e x m k, c.links.reducedOf e = some x → c.graph.Live e m →
      c.graph.node? x = some k → k.destroyed = true → k.set = s)
    {fuel : Nat} (hfuel : c.graph.liveCount < fuel) (report : Report) :
    Ensures (removeStaleExpansions fuel ⟨[s], report⟩) c
      (fun report' c' => c'.links = c.links ∧
        (∀ e x m, c'.links.reducedOf e = some x → c'.graph.Live e m → ∃ k, c'.graph.Live x k) ∧
        ∃ removed, report' = { report with staleExpansions := report.staleExpansions ++ removed } ∧
          ∀ n m, c.graph.Live n m → ((∀ m', ¬ c'.graph.Live n m') ↔
            ∃ e ∈ removed, ReflTransGen c.graph.Supports e.2 n))
      (fun _ _ => False) := by
  have howed : c.Owed [s] fun _ => False := by
    intro e x m k hx hm hk hdead
    have hd : k.destroyed = true := by
      rw [← Bool.not_eq_false]
      exact fun hd => hdead k ⟨hk, hd⟩
    exact Or.inl (List.mem_singleton.2 (hs e x m k hx hm hk hd))
  refine (removeStaleExpansions_prunes fuel ⟨[s], report⟩ h).imp (fun report' c' hc' => ?_)
    fun halt c' hc' => ?_
  · obtain ⟨g, ho⟩ := hc'
    obtain ⟨removed, hreport, hp⟩ := g.removed
    refine ⟨g.links, fun e x m hx hm => ?_, removed, hreport, fun n m hm => ?_⟩
    · obtain ⟨p, k, -, hk, -⟩ := g.attributed ha e x m hx hm
      by_contra hdead
      exact (ho ha howed e x m k hx hm hk (not_exists.1 hdead)).elim List.not_mem_nil id
    · rw [Graph.dead_iff, hp.destroyed, hm.isDestroyed]
      simp only [Bool.false_eq_true, false_or, Graph.DependsOn, List.mem_map,
        exists_exists_and_eq_and]
  · have hshort := hc'.2
    simp only [List.length_singleton] at hshort
    omega

/-! ### A block that calls itself -/

namespace SelfCall

def changes : List (GraphChange State Tracked) :=
  [.addNode { location := 0 } ∅ 0, .addNode { location := 10 } ∅ 0, .addNode { location := 10 } ∅ 1,
    .addNode { location := 10 } ∅ 1, .addNode { location := 12 } ∅ 1,
    .addNode { location := 12 } ∅ 1, .addNode { location := 1 } ∅ 0,
    .addNode { location := 12 } ∅ 1, .addEdge 0 1, .addEdge 2 3, .addEdge 2 4, .addEdge 3 5,
    .addEdge 1 6, .addEdge 2 7, .cover 7 5, .destroy 4]

def context : Context :=
  { Sample.start {} with
    graph := (Arena.after changes ∅).graph
    sets := #[((ReachedSet.start 0 0 .fifo).add 1).add 6,
      (((ReachedSet.start 1 2 .fifo).add 3).add 5).addWithoutWaiting 7]
    links := ((((({} : Links).linkEntry 1 1).linkEntry 3 1).linkExpanded 5 4).linkExpanded 6 5) }

theorem context_fenced : context.Fenced := by
  have hmember : ∀ s ∈ List.range 2, ∀ r ∈ context.sets[s]?.toList, ∀ n ∈ r.nodes.toList,
      ∃ m ∈ (context.graph.node? n).toList, m.destroyed = false ∧ m.set = s := by decide +kernel
  have hinside : ∀ a ∈ List.range 8, ∀ m ∈ (context.graph.node? a).toList,
      ∀ b ∈ m.children.toList ++ m.covers.toList,
        ∃ r ∈ context.sets[m.set]?.toList, a ∈ r ∧ b ∈ r := by decide +kernel
  have hfirst : ∀ r ∈ context.sets.toList, ∃ f ∈ (context.graph.node? r.first).toList,
      f.destroyed = false ∧ f.parents = ∅ ∧ f.coveredBy = none := by decide +kernel
  simp only [Option.mem_toList, List.mem_range] at hmember hinside hfirst
  refine ⟨(Arena.sane_empty.after changes).1.wellFormed, fun {s r n} hr hn => ?_,
    fun {a b} hab => ?_, fun {s r} hr => ?_⟩
  · obtain ⟨hlt, -⟩ := Array.getElem?_eq_some_iff.1 hr
    obtain ⟨m, hm, hd, hset⟩ := hmember s hlt r hr n hn
    exact ⟨m, ⟨hm, hd⟩, hset⟩
  · obtain ⟨m, hm, hb⟩ : ∃ m, context.graph.node? a = some m ∧
        b ∈ m.children.toList ++ m.covers.toList := by
      rcases hab with ⟨m, hm, hb⟩ | ⟨m, hm, hb⟩
      · exact ⟨m, hm, List.mem_append_left _ hb⟩
      · exact ⟨m, hm, List.mem_append_right _ hb⟩
    obtain ⟨r, hr, hmem⟩ := hinside a (Graph.lt_size_of_node? hm) m hm b hb
    exact ⟨m.set, r, hr, hmem⟩
  · obtain ⟨f, hf, hd, hstands⟩ := hfirst r (List.mem_of_getElem? (Array.getElem?_toList.trans hr))
    exact ⟨f, ⟨hf, hd⟩, hstands⟩

theorem context_attributed : context.Attributed := by
  have hcall : ∀ l ∈ context.links.exits.entries, ∃ p ∈ List.range 8,
      ∃ q ∈ (context.graph.node? p).toList, ∃ k ∈ (context.graph.node? l.2).toList,
        l.1 ∈ q.children ∧ context.links.setOfEntry p = some k.set := by decide +kernel
  simp only [Option.mem_toList] at hcall
  intro e x m hx hm
  obtain ⟨p, -, q, hq, k, hk, he, hs⟩ := hcall (e, x) (Table.mem_entries_iff.2 hx)
  exact ⟨p, k, ⟨q, hq, he⟩, hk, hs⟩

theorem own_expansion_first :
    Ensures (removeStaleExpansions 8 ⟨[1], {}⟩) context
      (fun report' c' => c'.links = context.links ∧
        (∀ e x m, c'.links.reducedOf e = some x → c'.graph.Live e m → ∃ k, c'.graph.Live x k) ∧
        ∃ removed, report' = { ({} : Report) with staleExpansions := [] ++ removed } ∧
          ∀ n m, context.graph.Live n m → ((∀ m', ¬ c'.graph.Live n m') ↔
            ∃ e ∈ removed, ReflTransGen context.graph.Supports e.2 n))
      (fun _ _ => False) ∧
    (value? (removeStaleExpansions 8 ⟨[1], {}⟩ context)).map Report.staleExpansions =
      some [(1, 5), (0, 6)] := by
  have hlost : ∀ l ∈ context.links.exits.entries, ∀ k ∈ (context.graph.node? l.2).toList,
      k.destroyed = true → k.set = 1 := by decide +kernel
  simp only [Option.mem_toList] at hlost
  exact ⟨stale_expansions_removed context_fenced context_attributed
    (fun e x m k hx _ hk => hlost (e, x) (Table.mem_entries_iff.2 hx) k hk) (by decide +kernel) {},
    by decide +kernel⟩

end SelfCall

end Blockwise
