import Blockwise.Proofs.Exploration.Grows

/-!
The children of a node as an exploration sees them: in the order of their creation, each with its
state and with the exit that it was expanded from. A step at a node appends one child there and
leaves the children of all other nodes as they are.
-/
namespace Blockwise

open Context

variable {program : Program} {c c' : Context} {n k parent : NodeId} {p : Node State Tracked}
  {r : ReachedSet} {state : State} {cover : Option NodeId} {t : SetId}

namespace Context

def stateOf (c : Context) (n : NodeId) : Option State := (c.graph.node? n).map (·.state)

def childrenOf (c : Context) (n : NodeId) : List NodeId :=
  ((c.graph.node? n).elim ∅ (·.children)).toList

def views (c : Context) (n : NodeId) : List (Option State × Option NodeId) :=
  (c.childrenOf n).map fun k => (c.stateOf k, c.links.reducedOf k)

/-- How a caller in the given state sees the exit `x` of the block `b`. -/
def viewOf (c : Context) (caller : State) (b : Block) (x : NodeId) : Option State × Option NodeId :=
  ((c.stateOf x).map (c.reducer.expand caller b), some x)

def Bare (c : Context) : Prop := ∀ n, c.Waits n → c.views n = []

theorem mem_childrenOf : k ∈ c.childrenOf n ↔ c.graph.Edge n k := by
  unfold childrenOf Graph.Edge
  cases c.graph.node? n with
  | none => simp
  | some m => simp

theorem views_eq_nil_iff : c.views n = [] ↔ ∀ k, ¬ c.graph.Edge n k := by
  rw [views, List.map_eq_nil_iff, List.eq_nil_iff_forall_not_mem]
  exact forall_congr' fun k => not_congr mem_childrenOf

theorem child_of_mem_views (h : c.Structured) {v : Option State × Option NodeId}
    (hv : v ∈ c.views n) {state : State} (hstate : v.1 = some state) :
    ∃ k m, c.graph.Edge n k ∧ c.graph.Live k m ∧ m.state = state ∧ c.links.reducedOf k = v.2 := by
  obtain ⟨k, hk, rfl⟩ := List.mem_map.1 hv
  have he := mem_childrenOf.1 hk
  obtain ⟨-, m, -, hm, -⟩ := h.live_of_edge he
  exact ⟨k, m, he, hm, by simpa [stateOf, hm.1] using hstate, rfl⟩

theorem Evolves.stateOf (e : c.Evolves c') (hn : n < c.graph.size) :
    c'.stateOf n = c.stateOf n := by
  obtain ⟨m, hm⟩ := Graph.node?_of_lt hn
  obtain ⟨m', hm', hs, -⟩ := e.node hm
  simp only [Context.stateOf, hm, hm', Option.map_some, hs]

theorem Evolves.viewOf (e : c.Evolves c') {caller : State} {b : Block} {x : NodeId}
    (hx : x < c.graph.size) : c'.viewOf caller b x = c.viewOf caller b x := by
  rw [Context.viewOf, e.stateOf hx, e.reducer]
  rfl

theorem Structured.lt_size_of_edge (h : c.Structured) (he : c.graph.Edge n k) :
    k < c.graph.size := by
  obtain ⟨-, m, -, hm, -⟩ := h.live_of_edge he
  exact hm.lt_size

theorem Evolves.views (e : c.Evolves c') (h : c.Structured)
    (hc : c'.childrenOf n = c.childrenOf n)
    (hx : ∀ k, k < c.graph.size → c'.links.reducedOf k = c.links.reducedOf k) :
    c'.views n = c.views n := by
  unfold Context.views
  rw [hc]
  refine List.map_congr_left fun k hk => ?_
  have hlt := h.lt_size_of_edge (mem_childrenOf.1 hk)
  rw [e.stateOf hlt, hx k hlt]

theorem childrenOf_sprout (h : c.Structured) (hf : c.Fertile parent p r cover) :
    (c.sprout parent p r state cover).childrenOf n =
      if n = parent then c.childrenOf n ++ [c.graph.size] else c.childrenOf n := by
  unfold childrenOf
  rw [node?_sprout hf]
  by_cases hn : n = c.graph.size
  · have hne : n ≠ parent := fun he => Nat.ne_of_lt hf.parent_lt (he.symm.trans hn)
    rw [if_pos hn, if_neg hne, hn, Graph.node?_size]
    rfl
  · rw [if_neg hn]
    by_cases hp : n = parent
    · subst hp
      have hlt : ∀ k ∈ p.children, k < c.graph.size := fun k hk =>
        h.lt_size_of_edge ⟨p, hf.parent.1, hk⟩
      simp only [hf.parent.1, Option.map_some, Option.elim_some, Graph.grown, if_true]
      exact SortedSet.toList_insert_of_lt hlt
    · rw [if_neg hp]
      cases c.graph.node? n <;> simp [Graph.grown, hp]

theorem views_sprout (h : c.Structured) (hf : c.Fertile parent p r cover) (links : Links)
    (hx : ∀ k, k < c.graph.size → links.reducedOf k = c.links.reducedOf k) :
    views { c.sprout parent p r state cover with links } n =
      if n = parent then c.views n ++ [(some state, links.reducedOf c.graph.size)]
      else c.views n := by
  have e : c.Evolves (c.sprout parent p r state cover) := evolves_sprout hf
  have hold : (c.childrenOf n).map (fun k =>
      ((c.sprout parent p r state cover).stateOf k, links.reducedOf k)) = c.views n := by
    refine List.map_congr_left fun k hk => ?_
    have hlt := h.lt_size_of_edge (mem_childrenOf.1 hk)
    rw [e.stateOf hlt, hx k hlt]
  have hnew : (c.sprout parent p r state cover).stateOf c.graph.size = some state := by
    unfold Context.stateOf
    rw [node?_sprout hf, if_pos rfl]
    rfl
  change ((c.sprout parent p r state cover).childrenOf n).map (fun k =>
    ((c.sprout parent p r state cover).stateOf k, links.reducedOf k)) = _
  rw [childrenOf_sprout h hf]
  split
  · rw [List.map_append, hold, List.map_singleton, hnew]
  · exact hold

end Context

theorem Unfolds.views (h : c.Sound) (st : Unfolds program n c c') (hk : k ≠ n) :
    c'.views k = c.views k := by
  cases st with
  | successor hp hr ht hn hc =>
    have hf := fertile_of_findCover h.toStructured hp hr hc
    exact (views_sprout h.toStructured hf c.links fun _ _ => rfl).trans (if_neg hk)
  | @expand p m r t x b hp hr =>
    have hf : c.Fertile n p r none := ⟨hp, hr, by simp⟩
    refine (views_sprout h.toStructured hf _ fun k hlt => ?_).trans (if_neg hk)
    exact (Links.reducedOf_linkExpanded ..).trans (if_neg (Nat.ne_of_gt hlt))
  | record => rfl

theorem Resolves.views (h : c.Sound) (st : Resolves n c t c') : c'.views k = c.views k := by
  refine (st.spec h).2.evolves.views h.toStructured ?_ fun k _ => ?_
  · cases st with
    | stored => rfl
    | similar => rfl
    | @fresh p K =>
      change SortedSet.toList (((c.graph.addNode K.state K.precision c.sets.size).node? k).elim ∅
        (·.children)) = SortedSet.toList ((c.graph.node? k).elim ∅ (·.children))
      rw [Graph.node?_addNode]
      split
      · rename_i hk
        rw [hk, Graph.node?_size]
        rfl
      · rfl
  · rw [st.links, Links.reducedOf_linkEntry]

namespace Grows

variable (h : c.Sound) (g : Grows program c c')

include h g

theorem views_of_not_open (hn : ¬ c.Open n) : c'.views n = c.views n := by
  induction g with
  | refl => rfl
  | quiet _ _ _ ih => exact ih
  | pop _ _ ih => exact ih
  | resolve g _ _ _ st ih => exact (st.views (g.sound h)).trans ih
  | unfold g ho _ st ih =>
    refine (st.views (g.sound h) ?_).trans ih
    rintro rfl
    exact hn ho

theorem bare (hbare : c.Bare) : c'.Bare := by
  refine fun n hn => views_eq_nil_iff.2 fun k he => ?_
  have hold := g.edge_of_lt h he (g.edge_lt_of_waits h hn he)
  obtain ⟨m, -, hm, -⟩ := h.live_of_edge hold
  rcases g.open_of_waits h hn with hw | hnew
  · exact views_eq_nil_iff.1 (hbare n hw) k hold
  · exact Nat.not_lt.2 hnew hm.lt_size

end Grows

end Blockwise
