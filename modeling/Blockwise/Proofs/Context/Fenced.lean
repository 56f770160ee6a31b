import Blockwise.Proofs.Context.Updates
import Blockwise.Proofs.Graph.Pruning

/-!
Contexts whose reached sets are fenced off from each other: no edge and no cover leads from one set
into another, or to the first node of a set. So the subtree of any other member can be cut out of
its set, and the sets stay fenced.
-/
namespace Blockwise

open Relation (ReflTransGen)

namespace Context

structure Fenced (c : Context) : Prop where
  graph : c.graph.WellFormed
  member : ∀ {s : SetId} {r : ReachedSet} {n : NodeId}, c.sets[s]? = some r → n ∈ r →
    ∃ m, c.graph.Live n m ∧ m.set = s
  inside : ∀ {a b}, c.graph.Supports a b →
    ∃ (s : SetId) (r : ReachedSet), c.sets[s]? = some r ∧ a ∈ r ∧ b ∈ r
  first : ∀ {s : SetId} {r : ReachedSet}, c.sets[s]? = some r →
    ∃ f, c.graph.Live r.first f ∧ f.parents = ∅ ∧ f.coveredBy = none

variable {c c' : Context} {s t : SetId} {r q : ReachedSet} {a b n root : NodeId} {gone : IdSet}
  {m : Node State Tracked} {adjustment : Adjustment Tracked}

theorem Structured.fenced (h : c.Structured) : c.Fenced where
  graph := h.graph
  member := h.live_of_mem
  inside := by
    rintro a b (hab | hab)
    · obtain ⟨ma, mb, ha, hb, -, -, hset⟩ := h.live_of_edge hab
      obtain ⟨r, hr, hmem⟩ := h.set_of_live ha
      exact ⟨ma.set, r, hr, hmem, (h.mem_iff hr).2 ⟨mb, hb, hset.symm⟩⟩
    · obtain ⟨ma, mb, ha, hb, -, hset⟩ := h.live_of_covers hab
      obtain ⟨r, hr, hmem⟩ := h.set_of_live ha
      exact ⟨ma.set, r, hr, hmem, (h.mem_iff hr).2 ⟨mb, hb, hset.symm⟩⟩
  first := by
    intro s r hr
    obtain ⟨f, hf, -⟩ := h.live_first hr
    exact ⟨f, hf, h.head hf ⟨s, r, hr, rfl⟩⟩

namespace Fenced

variable (h : c.Fenced)

include h

theorem rooted (hr : c.sets[s]? = some r) : Region.Rooted ⟨c.graph, r⟩ := ⟨h.graph, h.first hr⟩

theorem not_supports_first (hr : c.sets[s]? = some r) : ¬ c.graph.Supports a r.first :=
  (h.rooted hr).not_supports_first

theorem set_unique (hr : c.sets[s]? = some r) (hq : c.sets[t]? = some q) (hn : n ∈ r)
    (hn' : n ∈ q) : t = s := by
  obtain ⟨m, hm, rfl⟩ := h.member hr hn
  obtain ⟨m', hm', rfl⟩ := h.member hq hn'
  rw [hm.unique hm']

theorem mem_of_supports (hr : c.sets[s]? = some r) (ha : a ∈ r) (hab : c.graph.Supports a b) :
    b ∈ r := by
  obtain ⟨t, q, hq, hqa, hqb⟩ := h.inside hab
  cases h.set_unique hr hq ha hqa
  rwa [Option.some.inj (hr.symm.trans hq)]

theorem set_of_supports (hab : c.graph.Supports a b) (hb : c.graph.Live b m) :
    ∃ r, c.sets[m.set]? = some r ∧ b ∈ r ∧ b ≠ r.first := by
  obtain ⟨s, r, hr, -, hmem⟩ := h.inside hab
  obtain ⟨m', hm', rfl⟩ := h.member hr hmem
  cases hm'.unique hb
  refine ⟨r, hr, hmem, ?_⟩
  rintro rfl
  exact h.not_supports_first hr hab

theorem removeSubtree_cuts (hr : c.sets[s]? = some r) (hn : n ∈ r) (hne : n ≠ r.first)
    (adjustment : Adjustment Tracked) :
    Ensures (Action.removeSubtree s n adjustment) c
      (fun _ c' => ∃ gone, c.Cuttable s r n gone ∧ c' = c.cut s r adjustment gone)
      (fun _ _ => False) := by
  have hlive : ∀ a ∈ r, ∃ m, c.graph.Live a m := by
    intro a ha
    obtain ⟨m, hm, -⟩ := h.member hr ha
    exact ⟨m, hm⟩
  rw [Action.ensures_removeSubtree hr]
  refine ((Region.removeSubtree_spec (h.rooted hr) n adjustment).and (Region.removeSubtree_ok
    (h.rooted hr) hlive (fun a ha b hab => h.mem_of_supports hr ha hab) hn hne adjustment)).imp
    (fun changed region hregion => ?_) fun _ _ hbad => hbad.2
  have hroot : Region.removalRoot r n = some n := if_neg hne
  obtain ⟨⟨hnone, -, -⟩ | ⟨root, gone, hsome, hgone, rfl, -⟩, -⟩ := hregion
  · cases hroot.symm.trans hnone
  · cases Option.some.inj (hroot.symm.trans hsome)
    exact ⟨gone, ⟨hr, hne, hgone⟩, rfl⟩

end Fenced

theorem Cuttable.mem_iff (hc : c.Cuttable s r root gone) :
    a ∈ gone ↔ c.graph.DependsOn [root] a := by
  rw [hc.gone.mem a]
  simp [Graph.DependsOn]

theorem Cuttable.pruned (hc : c.Cuttable s r root gone) :
    c.graph.Pruned [root] (c.cut s r adjustment gone).graph where
  destroyed := by
    intro a
    rw [← hc.mem_iff, Graph.isDestroyed, Graph.isDestroyed, node?_cut]
    cases c.graph.node? a <;> simp [or_comm]
  set := by
    intro a
    rw [node?_cut, Option.map_map]
    exact congrArg (Option.map · _) (funext fun n => Graph.set_cutOut)
  edge := by
    intro a b
    rw [Graph.edge_of_cutOut node?_cut, ← hc.mem_iff, decide_eq_false_iff_not,
      decide_eq_false_iff_not]
    exact ⟨fun h => ⟨h.1, h.2.2⟩, fun h => ⟨h.1, fun ha => h.2 (hc.closed ha (.inl h.1)), h.2⟩⟩
  covers := by
    intro a b
    rw [Graph.covers_of_cutOut node?_cut, ← hc.mem_iff, decide_eq_false_iff_not,
      decide_eq_false_iff_not]
    exact ⟨fun h => ⟨h.1, h.2.2⟩, fun h => ⟨h.1, fun ha => h.2 (hc.closed ha (.inr h.1)), h.2⟩⟩

theorem Fenced.cut (h : c.Fenced) (hc : c.Cuttable s r root gone)
    (hroot : c.graph.Supports a root) : (c.cut s r adjustment gone).Fenced where
  graph := h.graph.cutOut node?_cut
  member := by
    intro t q n hq hn
    obtain ⟨q₀, hq₀, -, -, hmem, -⟩ := sets_of_cut hc hq
    obtain ⟨hn, hkept⟩ := (hmem n).1 hn
    obtain ⟨m, hm, rfl⟩ := h.member hq₀ hn
    have hkept : n ∉ gone := fun hgone =>
      hkept (h.set_unique hc.set hq₀ (hc.gone.inside n hgone) hn) hgone
    exact ⟨_, live_cut_iff.2 ⟨m, hm, hkept, rfl⟩, Graph.set_cutOut⟩
  inside := by
    intro a b hab
    obtain ⟨hab, hb⟩ := (hc.pruned.supports a b).1 hab
    have ha : a ∉ gone := fun ha => hb (hc.mem_iff.1 (hc.closed ha hab))
    rw [← hc.mem_iff] at hb
    obtain ⟨t, q₀, hq₀, hqa, hqb⟩ := h.inside hab
    obtain ⟨q, -, -, hmem, -, hsets⟩ := sets_cut adjustment gone hc.set
    by_cases hst : s = t
    · subst hst
      cases Option.some.inj (hc.set.symm.trans hq₀)
      exact ⟨s, q, by rw [hsets, if_pos rfl], (hmem a).2 ⟨hqa, ha⟩, (hmem b).2 ⟨hqb, hb⟩⟩
    · exact ⟨t, q₀, by rw [hsets, if_neg hst, hq₀], hqa, hqb⟩
  first := by
    intro t q hq
    obtain ⟨q₀, hq₀, -, hfirst, -⟩ := sets_of_cut hc hq
    obtain ⟨f, hf, hparents, hcover⟩ := h.first hq₀
    have hkept : q₀.first ∉ gone := by
      intro hgone
      rcases ((hc.gone.mem _).1 hgone).cases_tail with he | ⟨b, -, hb⟩
      · exact h.not_supports_first hq₀ (he ▸ hroot)
      · exact h.not_supports_first hq₀ hb
    rw [hfirst]
    exact ⟨_, live_cut_iff.2 ⟨f, hf, hkept, rfl⟩, Graph.detached_cutOut hparents hcover⟩

end Context

end Blockwise
