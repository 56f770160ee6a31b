import Blockwise.Proofs.Paths
import Blockwise.Proofs.Sessions
import Mathlib.Order.Bounds.Basic

/-!
The effect of a repair. It destroys the nodes that it was to remove and all that depends on them,
and nothing else: a node depends on its parent, on the node that covers it, and on the exit that it
was expanded from. The reached sets and the links lose what was destroyed.
-/
namespace Blockwise

open Context
open Relation (ReflTransGen)

variable {program : Program} {c c' d : Context} {roots : List NodeId} {s : SetId}
  {node n t : NodeId} {gone : Set NodeId}

namespace Context

/-- `gone` holds `roots`, and with a node all that depends on it. -/
structure Closed (c : Context) (roots : List NodeId) (gone : Set NodeId) : Prop where
  roots : ∀ n ∈ roots, n ∈ gone
  child : ∀ a b, a ∈ gone → c.graph.Edge a b → b ∈ gone
  covered : ∀ a b, a ∈ gone → c.graph.Covers a b → b ∈ gone
  expanded : ∀ x e, x ∈ gone → c.links.reducedOf e = some x → e ∈ gone

theorem Closed.dependent (h : c.Closed roots gone) {a b : NodeId} (ha : a ∈ gone)
    (hab : ReflTransGen c.graph.Supports a b) : b ∈ gone := by
  induction hab with
  | refl => exact ha
  | tail _ hab ih =>
    rcases hab with hab | hab
    · exact h.child _ _ ih hab
    · exact h.covered _ _ ih hab

def lost (c c' : Context) : Set NodeId :=
  {n | c.graph.isDestroyed n = false ∧ c'.graph.isDestroyed n = true}

theorem mem_lost : n ∈ c.lost c' ↔ (∃ m, c.graph.Live n m) ∧ ∀ m, ¬ c'.graph.Live n m := by
  rw [Graph.dead_iff, ← Graph.isDestroyed_eq_false]
  rfl

theorem Structured.live_of_supporting (h : c.Structured) {a b : NodeId}
    (hab : c.graph.Supports a b) : ∃ m, c.graph.Live a m := by
  rcases hab with hab | hab
  · obtain ⟨m, -, hm, -⟩ := h.live_of_edge hab
    exact ⟨m, hm⟩
  · obtain ⟨m, -, hm, -⟩ := h.live_of_covers hab
    exact ⟨m, hm⟩

theorem Structured.live_of_supports (h : c.Structured) {a b : NodeId}
    (hab : c.graph.Supports a b) : ∃ m, c.graph.Live b m := by
  rcases hab with hab | hab
  · obtain ⟨-, m, -, hm, -⟩ := h.live_of_edge hab
    exact ⟨m, hm⟩
  · obtain ⟨-, m, -, hm, -⟩ := h.live_of_covers hab
    exact ⟨m, hm⟩

theorem supports_addReachedSet {state : State} {precision : Tracked} {a b : NodeId} :
    (c.addReachedSet state precision).graph.Supports a b ↔ c.graph.Supports a b := by
  have hnode : ∀ {m}, (c.addReachedSet state precision).graph.node? a = some m →
      c.graph.node? a = some m ∨ m.children = ∅ ∧ m.covers = ∅ := by
    intro m hm
    rcases Graph.node?_addNode_eq_some_iff.1 hm with ⟨-, rfl⟩ | hm
    · exact Or.inr ⟨rfl, rfl⟩
    · exact Or.inl hm
  constructor
  · rintro (⟨m, hm, hb⟩ | ⟨m, hm, hb⟩)
    · rcases hnode hm with hm | ⟨hno, -⟩
      · exact Or.inl ⟨m, hm, hb⟩
      · exact absurd (hno ▸ hb) (SortedSet.not_mem_empty b)
    · rcases hnode hm with hm | ⟨-, hno⟩
      · exact Or.inr ⟨m, hm, hb⟩
      · exact absurd (hno ▸ hb) (SortedSet.not_mem_empty b)
  · rintro (⟨m, hm, hb⟩ | ⟨m, hm, hb⟩)
    · exact Or.inl ⟨m, Graph.node?_addNode_eq_some_iff.2 (Or.inr hm), hb⟩
    · exact Or.inr ⟨m, Graph.node?_addNode_eq_some_iff.2 (Or.inr hm), hb⟩

theorem Sheds.live (h : c.Structured) (st : c.Sheds s node c') (hnode : ¬ c.Heads node) :
    ∃ m, c.graph.Live node m := by
  cases st with
  | none hhead => exact absurd hhead hnode
  | @cut r root gone adjustment cache hc hroot =>
    have he := hc.root_eq hnode hroot
    obtain ⟨m, hm, -⟩ := hc.live h ((hc.gone.mem node).2 (he ▸ .refl))
    exact ⟨m, hm⟩

theorem Sheds.live_before (st : c.Sheds s node c') {m' : Node State Tracked}
    (hm' : c'.graph.Live n m') : ∃ m, c.graph.Live n m ∧ m.set = m'.set := by
  cases st with
  | none => exact ⟨m', hm', rfl⟩
  | cut =>
    obtain ⟨m, hm, -, rfl⟩ := (live_cut_iff (s := s)).1 hm'
    exact ⟨m, hm, Graph.set_cutOut.symm⟩

end Context

namespace Shrinks

variable (h : c.Sound) (g : Shrinks c roots d)

include h g

theorem supports_iff {a b : NodeId} : d.graph.Supports a b ↔
    c.graph.Supports a b ∧ ∃ m, d.graph.Live b m := by
  have removal : ∀ {roots d d' s node}, Shrinks c roots d → d.Sheds s node d' →
      (d.graph.Supports a b ↔ c.graph.Supports a b ∧ ∃ m, d.graph.Live b m) →
      (d'.graph.Supports a b ↔ c.graph.Supports a b ∧ ∃ m, d'.graph.Live b m) := by
    intro roots d d' s node g rm ih
    rw [rm.supports_iff (g.sound h), ih, and_assoc]
    refine and_congr_right fun _ => and_iff_right_of_imp ?_
    rintro ⟨m', hm'⟩
    obtain ⟨m, hm, -⟩ := rm.live_before hm'
    exact ⟨m, hm⟩
  induction g with
  | start => exact ⟨fun hab => ⟨hab, h.toStructured.live_of_supports hab⟩, And.left⟩
  | quiet _ _ _ ih => exact ih
  | forgetReturns _ _ ih => exact ih
  | forgetEntry _ _ ih => exact ih
  | @fresh roots d K g _ _ ih =>
    refine supports_addReachedSet.trans (ih.trans (and_congr_right fun hab => ?_))
    obtain ⟨m, hm⟩ := h.toStructured.live_of_supports hab
    obtain ⟨m', hm', -⟩ := (g.evolves h).node hm.1
    have hlt := Graph.lt_size_of_node? hm'
    refine exists_congr fun k => ?_
    change _ ↔ (d.addReachedSet K.state K.precision).graph.Live b k
    rw [live_addReachedSet_iff, or_iff_right]
    rintro ⟨rfl, -⟩
    exact Nat.lt_irrefl _ hlt
  | remove g rm ih => exact removal g rm ih
  | stale g _ _ rm ih => exact removal g rm ih

theorem live_cases {m' : Node State Tracked} (hm' : d.graph.Live n m') :
    (∃ m, c.graph.Live n m ∧ m.set = m'.set) ∨ c.sets.size ≤ m'.set := by
  have removal : ∀ {roots d d' s node m'}, Shrinks c roots d → d.Sheds s node d' →
      (∀ {m'}, d.graph.Live n m' →
        (∃ m, c.graph.Live n m ∧ m.set = m'.set) ∨ c.sets.size ≤ m'.set) →
      d'.graph.Live n m' →
        (∃ m, c.graph.Live n m ∧ m.set = m'.set) ∨ c.sets.size ≤ m'.set := by
    intro roots d d' s node m' g rm ih hm'
    obtain ⟨m, hm, hset⟩ := rm.live_before hm'
    rw [← hset]
    exact ih hm
  induction g generalizing m' with
  | start => exact Or.inl ⟨m', hm', rfl⟩
  | quiet _ _ _ ih => exact ih hm'
  | forgetReturns _ _ ih => exact ih hm'
  | forgetEntry _ _ ih => exact ih hm'
  | @fresh roots d K g _ _ ih =>
    rcases live_addReachedSet_iff.1 hm' with ⟨-, rfl⟩ | hm'
    · refine Or.inr (Nat.le_of_not_lt fun hlt => ?_)
      exact Nat.lt_irrefl _ ((g.evolves h).lt_sets_size hlt)
    · exact ih hm'
  | remove g rm ih => exact removal g rm ih hm'
  | stale g _ _ rm ih => exact removal g rm ih hm'

theorem lost_of_root (hn : n ∈ roots) (hex : ∃ m, c.graph.node? n = some m)
    (hhead : ¬ c.Heads n) : n ∈ c.lost d := by
  obtain ⟨m, hm⟩ := hex
  have step : ∀ {roots d d'}, Shrinks c roots d → Shrinks d [] d' →
      n ∈ c.lost d → n ∈ c.lost d' := by
    intro roots d d' g g' hd
    obtain ⟨hlive, hdead⟩ := mem_lost.1 hd
    obtain ⟨m', hm', -⟩ := (g.evolves h).node hm
    exact mem_lost.2 ⟨hlive, g'.dead (g.sound h) ⟨m', hm'⟩ hdead⟩
  induction g with
  | start => cases hn
  | quiet g _ _ ih => exact ih hn
  | forgetReturns g _ ih => exact ih hn
  | forgetEntry g _ ih => exact ih hn
  | fresh g hK hp ih => exact step g (Shrinks.start.fresh hK hp) (ih hn)
  | @remove roots d s node d' g rm ih =>
    have hmono : n ∈ c.lost d → n ∈ c.lost d' := by
      intro hd
      obtain ⟨hlive, hdead⟩ := mem_lost.1 hd
      refine mem_lost.2 ⟨hlive, fun m' hm' => ?_⟩
      obtain ⟨m, hm, -⟩ := rm.live_before hm'
      exact hdead m hm
    rcases List.mem_append.1 hn with hn | hn
    · exact hmono (ih hn)
    · cases List.mem_singleton.1 hn
      have hd : ¬ d.Heads n := by
        rwa [(g.evolves h).heads_iff (Graph.lt_size_of_node? hm)]
      obtain ⟨m', hm'⟩ := rm.live (g.sound h).toStructured hd
      exact mem_lost.2 ⟨⟨m, (g.live h hm' hm).1⟩, rm.not_live hd⟩
  | stale g hx hdead rm ih => exact step g (Shrinks.start.stale hx hdead rm) (ih hn)

theorem mem_of_shed (hclosed : c.Closed [] gone) (rm : d.Sheds s node c') (hhead : ¬ d.Heads node)
    (hnode : node ∈ gone) {m : Node State Tracked} (hm : d.graph.Live n m)
    (hdead : ∀ m', ¬ c'.graph.Live n m') : n ∈ gone := by
  refine hclosed.dependent hnode ?_
  refine ReflTransGen.mono (fun a b hab => ?_) _ _ (rm.dependent_of_lost hhead hm hdead)
  exact ((g.supports_iff h).1 hab).1

theorem mem_of_lost (htidy : c.Tidy) (hclosed : c.Closed [] gone)
    (hroots : ∀ n ∈ roots, n ∈ gone ∧ (∃ m, c.graph.node? n = some m) ∧ ¬ c.Heads n)
    {m : Node State Tracked} (hm : c.graph.Live n m) (hdead : ∀ m', ¬ d.graph.Live n m') :
    n ∈ gone := by
  induction g generalizing n m with
  | start => exact absurd hm (hdead m)
  | quiet _ _ _ ih => exact ih hroots hm hdead
  | forgetReturns _ _ ih => exact ih hroots hm hdead
  | forgetEntry _ _ ih => exact ih hroots hm hdead
  | fresh _ _ _ ih =>
    exact ih hroots hm fun m' hm' => hdead m' (live_addReachedSet_iff.2 (Or.inr hm'))
  | @remove roots d s node d' g rm ih =>
    by_cases hlive : ∃ m', d.graph.Live n m'
    · obtain ⟨m', hm'⟩ := hlive
      obtain ⟨hnode, ⟨k, hk⟩, hhead⟩ := hroots node (by simp)
      rw [← (g.evolves h).heads_iff (Graph.lt_size_of_node? hk)] at hhead
      exact g.mem_of_shed h hclosed rm hhead hnode hm' hdead
    · exact ih (fun a ha => hroots a (List.mem_append_left _ ha)) hm fun m' hm' => hlive ⟨m', hm'⟩
  | @stale roots d s e x d' g hx hgone rm ih =>
    by_cases hlive : ∃ m', d.graph.Live n m'
    · obtain ⟨m', hm'⟩ := hlive
      have hhead := ((g.sound h).exit hx).expanded_not_head
      rw [g.links h] at hx
      obtain ⟨-, k, hk⟩ := htidy e x hx
      have he := hclosed.expanded x e (ih hroots hk hgone) hx
      exact g.mem_of_shed h hclosed rm hhead he hm' hdead
    · exact ih hroots hm fun m' hm' => hlive ⟨m', hm'⟩

variable (hroots : ∀ n ∈ roots, (∃ m, c.graph.node? n = some m) ∧ ¬ c.Heads n)

include hroots

theorem closed_lost (htidy : c.Tidy) (ho : d.Owed [] fun _ => False) :
    c.Closed roots (c.lost d) := by
  have supported : ∀ a b, a ∈ c.lost d → c.graph.Supports a b → b ∈ c.lost d := by
    intro a b ha hab
    refine mem_lost.2 ⟨h.toStructured.live_of_supports hab, fun m hm => ?_⟩
    obtain ⟨m', hm'⟩ := (g.sound h).toStructured.live_of_supporting
      ((g.supports_iff h).2 ⟨hab, m, hm⟩)
    exact (mem_lost.1 ha).2 m' hm'
  refine ⟨fun n hn => ?_, fun a b ha hab => ?_, fun a b ha hab => ?_, fun x e hx hex => ?_⟩
  · exact g.lost_of_root h hn (hroots n hn).1 (hroots n hn).2
  · exact supported a b ha (Or.inl hab)
  · exact supported a b ha (Or.inr hab)
  · obtain ⟨he, k, hk⟩ := htidy e x hex
    obtain ⟨k', hk', -⟩ := (g.evolves h).node hk.1
    refine mem_lost.2 ⟨he, fun m hm => ?_⟩
    have hd : d.links.reducedOf e = some x := by rw [g.links h, hex]
    rcases ho e x m k' hd hm hk' (mem_lost.1 hx).2 with hno | hno
    · cases hno
    · exact hno

theorem isLeast_lost (htidy : c.Tidy) (ho : d.Owed [] fun _ => False) :
    IsLeast {gone | c.Closed roots gone} (c.lost d) := by
  refine ⟨g.closed_lost h hroots htidy ho, fun gone hclosed n hn => ?_⟩
  obtain ⟨⟨m, hm⟩, hdead⟩ := mem_lost.1 hn
  have hnone : c.Closed [] gone := { hclosed with roots := by simp }
  exact g.mem_of_lost h htidy hnone (fun a ha => ⟨hclosed.roots a ha, hroots a ha⟩) hm hdead

omit hroots in
theorem mem_set {r : ReachedSet} (hr : c.sets[s]? = some r) :
    ∃ r', d.sets[s]? = some r' ∧ ∀ n, n ∈ r' ↔ n ∈ r ∧ n ∉ c.lost d := by
  obtain ⟨r', hr', -⟩ := (g.evolves h).set hr
  refine ⟨r', hr', fun n => ?_⟩
  rw [(g.sound h).mem_iff hr', h.mem_iff hr]
  constructor
  · rintro ⟨m', hm', rfl⟩
    refine ⟨(g.live_cases h hm').resolve_right (Nat.not_le.2 (lt_size_of_sets hr)), fun hn => ?_⟩
    exact (mem_lost.1 hn).2 m' hm'
  · rintro ⟨⟨m, hm, rfl⟩, hn⟩
    have hlive : ∃ m', d.graph.Live n m' := by
      by_contra hdead
      exact hn (mem_lost.2 ⟨⟨m, hm⟩, not_exists.1 hdead⟩)
    obtain ⟨m', hm'⟩ := hlive
    exact ⟨m', hm', (g.live h hm' hm.1).2.1⟩

end Shrinks

/-! ### The effect -/

/-- What a repair with this report makes of `c`. -/
structure RepairEffect (c : Context) (report : Report) (c' : Context) : Prop where
  destroyed : IsLeast {gone | c.Closed report.roots gone} (c.lost c')
  members : ∀ (s : SetId) (r : ReachedSet), c.sets[s]? = some r →
    ∃ r', c'.sets[s]? = some r' ∧ ∀ n, n ∈ r' ↔ n ∈ r ∧ n ∉ c.lost c'
  expanded : ∀ e x, c'.links.reducedOf e = some x ↔
    c.links.reducedOf e = some x ∧ e ∉ c.lost c' ∧ x ∉ c.lost c'

namespace Context

variable {path : Path} {report : Report}

theorem Agreed.not_owed (h : c.Agreed) : c.Owed [] fun _ => False := by
  intro e x m k hx _ _ hdead
  obtain ⟨-, k', hk'⟩ := h.tidy e x hx
  exact absurd hk' (hdead k')

theorem Agreed.removable (h : c.Agreed) (ht : (∃ m, c.graph.node? t = some m) ∧ ¬ c.Heads t)
    (hend : ∀ n, path.EndsAt n → (∃ m, c.graph.node? n = some m) ∧ ¬ c.Heads n)
    (hn : (c.Calls n ∨ n = t ∨ path.EndsAt n) ∨ ∃ e, c.links.reducedOf e = some n) :
    (∃ m, c.graph.node? n = some m) ∧ ¬ c.Heads n := by
  rcases hn with (⟨s, hs⟩ | rfl | hn) | ⟨e, he⟩
  · obtain ⟨m, -, -, -, hm, hhead, -⟩ := h.call hs
    exact ⟨⟨m, hm⟩, hhead⟩
  · exact ht
  · exact hend n hn
  · obtain ⟨m, hm, -⟩ := (h.exit he).exit
    exact ⟨⟨m, hm⟩, (h.exit he).exit_not_head⟩

theorem Agreed.repairEffect (h : c.Agreed) (ht : (∃ m, c.graph.node? t = some m) ∧ ¬ c.Heads t)
    (hend : ∀ n, path.EndsAt n → (∃ m, c.graph.node? n = some m) ∧ ¬ c.Heads n)
    (hd : Repaired c path t report d) : RepairEffect c report d.finishRepair := by
  obtain ⟨roots, g, hr, hroots, ho⟩ := hd.repairs
  have hr : report.roots = roots := hr
  have hsafe : ∀ n ∈ roots, (∃ m, c.graph.node? n = some m) ∧ ¬ c.Heads n :=
    fun n hn => h.removable ht hend (hroots n hn)
  refine ⟨?_, fun s r hs => g.mem_set h.toSound hs, fun e x => ?_⟩
  · change IsLeast _ (c.lost d)
    rw [hr]
    exact g.isLeast_lost h.toSound hsafe h.tidy (ho h.faithful h.not_owed)
  · have left : ∀ {n}, (∃ m, c.graph.Live n m) → ((∃ m, d.graph.Live n m) ↔ n ∉ c.lost d) := by
      intro n hn
      rw [mem_lost, not_and, not_forall_not]
      exact ⟨fun hl _ => hl, fun hl => hl hn⟩
    rw [reducedOf_finishRepair, g.links h.toSound]
    refine and_congr_right fun hx => ?_
    obtain ⟨he, hk⟩ := h.tidy e x hx
    exact and_congr (left he) (left hk)

end Context

theorem Path.endsAt_iff {path : Path} (hlast : path.nodes.getLast? = some t) :
    path.EndsAt n ↔ n = t := by
  obtain ⟨nodes⟩ := path
  have hne : nodes ≠ [] := by
    rintro rfl
    cases hlast
  have hend : Path.last ⟨nodes⟩ = .ok (nodes.length - 1) := by
    simp [Path.last, Path.size, hne]
  have hreached : Path.reachedNode ⟨nodes⟩ (nodes.length - 1) = .ok t :=
    Path.reachedNode_eq_ok.2 (List.getLast?_eq_getElem?.symm.trans hlast)
  constructor
  · rintro ⟨element, he, hn⟩
    cases hend.symm.trans he
    cases hreached.symm.trans hn
    rfl
  · rintro rfl
    exact ⟨_, hend, hreached⟩

theorem mem_tail_of_getElem? {l : List NodeId} {i : Nat} (hi : 0 < i) (hn : l[i]? = some n) :
    n ∈ l.tail := by
  refine List.mem_of_getElem? (i := i - 1) ?_
  rw [List.getElem?_tail, Nat.sub_add_cancel hi, hn]

theorem Path.behind_element (h : c.Agreed) {path : Path} {target : PathIndex}
    (hp : Path.toTarget c t = .ok path) (hpos : 0 < target) (hn : path.nodes[target]? = some n) :
    (∃ k, c.graph.Live (c.links.mostInner n) k) ∧ ¬ c.Heads (c.links.mostInner n) ∧
      c.links.reducedOf (c.links.mostInner n) = none := by
  have hpath := Path.toTarget_leadsTo h hp
  have hinside := mem_tail_of_getElem? hpos hn
  obtain ⟨m, hm⟩ := hpath.live n (List.mem_of_mem_tail hinside)
  exact h.mostInner_spec hm (hpath.tail n hinside)

theorem repairPath_effect (h : c.Agreed) {path : Path} {target : PathIndex}
    {fuel : Nat} {increments : List (Increment Tracked)} {report : Report}
    (hp : Path.toTarget c t = .ok path) (hpos : 0 < target) (hn : path.nodes[target]? = some n)
    (hr : repairPath fuel path target increments c = .ok report c') :
    RepairEffect c report c' ∧ t ∈ c.lost c' ∧ c.links.mostInner n ∈ c.lost c' := by
  have hpath := Path.toTarget_leadsTo h hp
  have hlt : target < path.nodes.length := (List.getElem?_eq_some_iff.1 hn).1
  have hsize : 0 < path.nodes.length - 1 := Nat.sub_pos_of_lt (Nat.lt_of_le_of_lt hpos hlt)
  have hlast : path.nodes[path.nodes.length - 1]? = some t := by
    rw [← List.getLast?_eq_getElem?, hpath.last]
  obtain ⟨mt, hmt⟩ := hpath.live t (List.mem_of_getElem? hlast)
  have hhead : ¬ c.Heads t := hpath.tail t (mem_tail_of_getElem? hsize hlast)
  obtain ⟨⟨k, hk⟩, hinner, hno⟩ := Path.behind_element h hp hpos hn
  obtain ⟨t', d, ht', rfl, hd⟩ := (repairPath_spec h.toSound fuel path target increments).of_ok hr
  rw [reachedState_of_node hn] at ht'
  cases ht'
  -- the target is live, so the repair does not stop at once
  have hd := (hd.resolve_left fun hd => hd.1 k hk).2
  have hend : ∀ a, path.EndsAt a → (∃ m, c.graph.node? a = some m) ∧ ¬ c.Heads a := by
    intro a ha
    rw [(Path.endsAt_iff hpath.last).1 ha]
    exact ⟨⟨mt, hmt.1⟩, hhead⟩
  refine ⟨h.repairEffect ⟨⟨k, hk.1⟩, hinner⟩ hend hd, mem_lost.2 ⟨⟨mt, hmt⟩, ?_⟩,
    mem_lost.2 ⟨⟨k, hk⟩, ?_⟩⟩
  · exact hd.pathEnd t ((Path.endsAt_iff hpath.last).2 rfl) hhead ⟨mt, hmt.1⟩
  · exact hd.target hno hinner

theorem Path.toTarget_withShutdown (c : Context) (shutdown : Shutdown) (t : NodeId) :
    Path.toTarget { c with shutdown } t = Path.toTarget c t := by
  have hflatten : ∀ depth n, Path.flatten { c with shutdown } depth n = Path.flatten c depth n := by
    intro depth
    induction depth with
    | zero => exact fun _ => rfl
    | succ depth ih =>
      intro n
      simp only [Path.flatten, ih]
  simp only [Path.toTarget, hflatten]

/-- A successful repair destroys the least set that holds the removed nodes and all that depends on
it. -/
theorem repair_destroys_dependents (m : Maintained program c) (shutdown : Shutdown)
    {path : Path} {target : PathIndex} {fuel : Nat} {increments : List (Increment Tracked)}
    {report : Report} (hp : Path.toTarget c t = .ok path) (hpos : 0 < target)
    (hn : path.nodes[target]? = some n)
    (hr : repairPath fuel path target increments { c with shutdown } = .ok report c') :
    RepairEffect c report c' ∧ t ∈ c.lost c' ∧ c.links.mostInner n ∈ c.lost c' := by
  rw [← Path.toTarget_withShutdown c shutdown] at hp
  obtain ⟨effect, hlost⟩ := repairPath_effect (m.agreed.withShutdown shutdown) hp hpos hn hr
  obtain ⟨⟨hclosed, hleast⟩, hmembers, hexpanded⟩ := effect
  exact ⟨⟨⟨{ hclosed with }, fun gone hgone => hleast { hgone with }⟩, hmembers, hexpanded⟩, hlost⟩

theorem relinking_repair_effect : ∃ report c',
    repairPath 100 Relinking.path 4 Relinking.increments
      { Relinking.explored with shutdown := .never } = .ok report c' ∧
    RepairEffect Relinking.explored report c' ∧ 10 ∈ Relinking.explored.lost c' ∧
      Relinking.explored.links.mostInner 10 ∈ Relinking.explored.lost c' := by
  have m : Maintained Relinking.program Relinking.explored :=
    .explored (.run (.start ..) Shutdown.never 100)
  obtain ⟨report, hr⟩ := ok_of_value? (r := repairPath 100 Relinking.path 4 Relinking.increments
    { Relinking.explored with shutdown := .never }) (by decide +kernel)
  have hp : Path.toTarget Relinking.explored 10 = .ok Relinking.path := by decide +kernel
  have hn : Relinking.path.nodes[4]? = some 10 := by decide
  exact ⟨report, _, hr, repair_destroys_dependents m .never hp (by decide) hn hr⟩

end Blockwise
