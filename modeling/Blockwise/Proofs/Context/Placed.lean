import Blockwise.Proofs.Graph.Changes
import Blockwise.Proofs.Repair.Kept

/-!
A weak shape of contexts, which every action keeps, also where nodes are covered by nodes of other
reached sets. Every node records a reached set that is there, and the reached sets hold nodes that
are there. So an action that has found its node alive finds the reached set of the node as well.
-/
namespace Blockwise

open Context

variable {c : Context} {s : SetId} {r r' : ReachedSet} {parent : NodeId}
  {p : Node State Tracked} {state : State}

namespace Context

structure Placed (c : Context) : Prop where
  graph : c.graph.WellFormed
  set_lt : ∀ {n m}, c.graph.node? n = some m → m.set < c.sets.size
  mem_lt : ∀ {s : SetId} {r : ReachedSet} {n : NodeId}, c.sets[s]? = some r → n ∈ r →
    n < c.graph.size

namespace Placed

variable (h : c.Placed)

include h

theorem exists_set {n : NodeId} {m : Node State Tracked} (hm : c.graph.node? n = some m) :
    ∃ r, c.sets[m.set]? = some r :=
  ⟨_, Array.getElem?_eq_getElem (h.set_lt hm)⟩

theorem rest (cache : Cache State Tracked) (links : Links) (statistics : Statistics)
    (shutdown : Shutdown) : ({ c with cache, links, statistics, shutdown } : Context).Placed :=
  ⟨h.graph, h.set_lt, h.mem_lt⟩

theorem putSet (hmem : ∀ n ∈ r', n < c.graph.size) : (c.putSet s r').Placed where
  graph := h.graph
  set_lt := by
    intro n m hm
    simpa [Context.putSet] using h.set_lt hm
  mem_lt := by
    intro t q n hq hn
    rw [Context.putSet, Array.getElem?_setIfInBounds] at hq
    split at hq
    · split at hq
      · cases hq
        exact hmem n hn
      · cases hq
    · exact h.mem_lt hq hn

theorem maps {f : NodeId → Node State Tracked → Node State Tracked} {g : Graph State Tracked}
    (hf : c.graph.Maps f g) (hset : ∀ i n, (f i n).set = n.set) (hg : g.WellFormed) :
    ({ c with graph := g } : Context).Placed where
  graph := hg
  set_lt := by
    intro n m hm
    rw [hf n] at hm
    obtain ⟨m₀, hm₀, rfl⟩ := Option.map_eq_some_iff.1 hm
    rw [hset]
    exact h.set_lt hm₀
  mem_lt := fun hq hn => hf.lt_size (h.mem_lt hq hn)

theorem grow (hp : c.graph.Live parent p) (state : State) :
    ({ c with graph := c.graph.sprout parent state p.precision p.set none } : Context).Placed where
  graph := by
    have hbare : ∀ k, (none : Option NodeId) = some k → ∃ m, c.graph.Live k m := by simp
    exact h.graph.sprout hp hbare
  set_lt := by
    intro n m hm
    rw [Graph.node?_sprout hp.lt_size (by simp)] at hm
    split at hm
    · cases hm
      exact h.set_lt (m := p) hp.1
    · obtain ⟨m₀, hm₀, rfl⟩ := Option.map_eq_some_iff.1 hm
      exact h.set_lt (m := m₀) hm₀
  mem_lt := by
    intro t q n hq hn
    change n < (c.graph.sprout parent state p.precision p.set none).size
    rw [Graph.size_sprout]
    exact Nat.lt_succ_of_lt (h.mem_lt hq hn)

theorem addReachedSet (state : State) (precision : Tracked) :
    (c.addReachedSet state precision).Placed where
  graph := h.graph.addNode
  set_lt := by
    intro n m hm
    change m.set < (c.sets.push _).size
    rw [Array.size_push]
    rcases Graph.node?_addNode_eq_some_iff.1 hm with ⟨-, rfl⟩ | hm
    · exact Nat.lt_succ_self _
    · exact Nat.lt_succ_of_lt (h.set_lt hm)
  mem_lt := by
    intro t q n hq hn
    have hsize : (c.addReachedSet state precision).graph.size = c.graph.size + 1 := by
      simp [Context.addReachedSet, Graph.size, Graph.addNode]
    rw [hsize]
    rw [sets_addReachedSet] at hq
    split at hq
    · cases hq
      rw [ReachedSet.mem_start] at hn
      exact hn ▸ Nat.lt_succ_self _
    · exact Nat.lt_succ_of_lt (h.mem_lt hq hn)

theorem cacheSet (K : Key) : (c.cacheSet K).Placed :=
  (h.addReachedSet K.state K.precision).rest _ c.links c.statistics c.shutdown

theorem removal (hr : c.sets[s]? = some r) (adjustment : Adjustment Tracked)
    (plan : RemovalPlan) :
    (c.putRegion s (Region.applyRemoval adjustment plan ⟨c.graph, r⟩)).Placed := by
  have hcut : c.graph.Maps
      (Graph.cutOut (· ∈ plan.removed) (Region.reprice adjustment plan.frontier))
      (Region.applyRemoval adjustment plan ⟨c.graph, r⟩).graph := Region.node?_applyRemoval
  obtain ⟨more, hreached, -⟩ := Region.applyRemoval_reached adjustment plan ⟨c.graph, r⟩
  refine (h.maps hcut (fun _ _ => Graph.set_cutOut) (h.graph.cutOut hcut)).putSet fun n hn => ?_
  rw [hreached] at hn
  exact hcut.lt_size (h.mem_lt hr (ReachedSet.mem_removeAll.1 hn).1)

end Placed

theorem ofGraphAndSets_placed : OfGraphAndSets Placed :=
  fun _ cache links statistics shutdown h => h.rest cache links statistics shutdown

theorem placed_start (partitioning : Partitioning) (reducer : Reducer) (state : State)
    (precision : Tracked) (options : Options) :
    (start partitioning reducer state precision options).Placed :=
  Placed.addReachedSet ⟨Graph.wellFormed_empty, by simp, by simp⟩ state precision

end Context

/-! ### What the actions do to such a context -/

namespace Action

theorem addSuccessor_cases (h : c.Placed) (parent : NodeId) (state : State) :
    Ensures (addSuccessor parent state) c
      (fun n c' => ∃ p r, c.graph.Live parent p ∧ c.sets[p.set]? = some r ∧ n = c.graph.size ∧
        c' = c.sprout parent p r state none)
      (fun fault c' => c.graph.liveNode parent = .error fault ∧ c' = c) := by
  cases hp : c.graph.liveNode parent with
  | error fault =>
    rw [ensures_of_error (addSuccessor_eq_error hp)]
    exact ⟨rfl, rfl⟩
  | ok p =>
    have hp := Graph.liveNode_eq_ok.1 hp
    obtain ⟨r, hr⟩ := h.exists_set hp.1
    rw [ensures_of_ok (addSuccessor_eq_ok hp hr)]
    exact ⟨p, r, hp, hr, rfl, rfl⟩

theorem addCoveredSuccessor_cases (h : c.Placed) (parent : NodeId) (state : State)
    (cover : NodeId) :
    Ensures (addCoveredSuccessor parent state cover) c
      (fun n c' => ∃ p r g, c.graph.Live parent p ∧ c.sets[p.set]? = some r ∧
        (c.graph.sprout parent state p.precision p.set none).cover c.graph.size cover = .ok g ∧
        n = c.graph.size ∧
        c' = ({ c with graph := g } : Context).putSet p.set (r.addWithoutWaiting c.graph.size))
      (fun fault c' => c.graph.liveNode parent = .error fault ∧ c' = c ∨
        ∃ p, c.graph.Live parent p ∧
          (c.graph.sprout parent state p.precision p.set none).cover c.graph.size cover =
            .error fault ∧
          c' = { c with graph := c.graph.sprout parent state p.precision p.set none }) := by
  cases hp : c.graph.liveNode parent with
  | error fault =>
    rw [ensures_of_error (addCoveredSuccessor_eq_error hp cover)]
    exact Or.inl ⟨rfl, rfl⟩
  | ok p =>
    have hp := Graph.liveNode_eq_ok.1 hp
    obtain ⟨r, hr⟩ := h.exists_set hp.1
    have hgrown := h.grow hp state
    have hnew : (c.graph.sprout parent state p.precision p.set none).Live c.graph.size
        (c.graph.sprouted parent state p.precision p.set none) :=
      Graph.live_size_sprout hp.lt_size (by simp)
    simp only [addCoveredSuccessor, editGraph, modifyGraph, ensures_bind, ensures_get,
      ensures_modify, ensures_of_ok (addChild_eq_ok hp)]
    rw [ensures_liftExcept]
    constructor
    · intro g hg
      obtain ⟨-, -, hmaps⟩ := Graph.cover_spec hgrown.graph hg
      have hnode : g.Live c.graph.size (Graph.coverTaken c.graph.size cover c.graph.size
          (c.graph.sprouted parent state p.precision p.set none)) :=
        ⟨by rw [hmaps, hnew.1, Option.map_some], rfl⟩
      rw [ensures_lift_of_ok (Graph.liveNode_eq_ok.2 hnode),
        ensures_of_ok (modifySet_eq_ok (r := r) (by exact hr)), ensures_pure]
      exact ⟨p, r, g, hp, hr, hg, rfl, rfl⟩
    · intro fault hfault
      exact Or.inr ⟨p, hp, hfault, rfl⟩

theorem placed_addSuccessor (parent : NodeId) (state : State) :
    Maintains Placed (addSuccessor parent state) := by
  intro c h
  refine (addSuccessor_cases h parent state).imp (fun n d hd => ?_) fun _ d hd => hd.2 ▸ h
  obtain ⟨p, r, hp, hr, -, rfl⟩ := hd
  refine (h.grow hp state).putSet fun k hk => ?_
  change k < (c.graph.sprout parent state p.precision p.set none).size
  rw [Graph.size_sprout]
  rcases ReachedSet.mem_add.1 hk with rfl | hk
  · exact Nat.lt_succ_self _
  · exact Nat.lt_succ_of_lt (h.mem_lt hr hk)

theorem placed_addCoveredSuccessor (parent : NodeId) (state : State) (cover : NodeId) :
    Maintains Placed (addCoveredSuccessor parent state cover) := by
  intro c h
  refine (addCoveredSuccessor_cases h parent state cover).imp (fun n d hd => ?_)
    (fun fault d hd => ?_)
  · obtain ⟨p, r, g, hp, hr, hg, -, rfl⟩ := hd
    have hgrown := h.grow hp state
    obtain ⟨-, -, hmaps⟩ := Graph.cover_spec hgrown.graph hg
    have hcovered := hgrown.maps hmaps (fun _ _ => rfl)
      (Graph.alters_cover hgrown.graph hg).wellFormed
    refine hcovered.putSet fun k hk => ?_
    apply hmaps.lt_size
    rw [Graph.size_sprout]
    rcases ReachedSet.mem_addWithoutWaiting.1 hk with rfl | hk
    · exact Nat.lt_succ_self _
    · exact Nat.lt_succ_of_lt (h.mem_lt hr hk)
  · rcases hd with ⟨-, rfl⟩ | ⟨p, hp, -, rfl⟩
    · exact h
    · exact h.grow hp state

theorem placed_addOrCover (s : SetId) (parent : NodeId) (state : State) :
    Maintains Placed (addOrCover s parent state) := by
  refine Maintains.get.bind fun _ => (Maintains.lift _).bind fun _ =>
    (Maintains.lift _).bind fun cover => ?_
  cases cover with
  | none => exact (placed_addSuccessor parent state).bind fun _ => .pure _
  | some k => exact (placed_addCoveredSuccessor parent state k).bind fun _ => .pure _

theorem placed_newReachedSet (state : State) (precision : Tracked) :
    Maintains Placed (newReachedSet state precision) :=
  Maintains.get.bind fun _ =>
    (Maintains.modify fun _ h => h.addReachedSet state precision).bind fun _ => .pure _

theorem placed_cacheNewSet (K : Key) : Maintains Placed (cacheNewSet K) := by
  intro c h
  rw [ensures_of_ok (cacheNewSet_eq_ok c K)]
  exact h.cacheSet K

theorem placed_resolveCall (callNode : NodeId) : Maintains Placed (resolveCall callNode) := by
  intro c h
  refine (resolveCall_cases c callNode).imp (fun res c' hc' => ?_) fun _ _ hc' => hc'.2 ▸ h
  obtain ⟨K, -, answer⟩ := hc'
  cases answer with
  | stored => exact h.rest _ _ _ c.shutdown
  | similar => exact h.rest _ _ _ c.shutdown
  | fresh => exact (h.cacheSet K).rest _ _ _ c.shutdown

theorem placed_expandExit (callNode exit : NodeId) :
    Maintains Placed (expandExit callNode exit) :=
  Maintains.get.bind fun _ => (Maintains.lift _).bind fun _ => (Maintains.lift _).bind fun _ =>
    (Maintains.lift _).bind fun _ => (placed_addSuccessor _ _).bind fun _ =>
      (ofGraphAndSets_placed.modifyLinks _).bind fun _ => .pure _

theorem placed_expandBlockExits (callNode : NodeId) (s : SetId) :
    Maintains Placed (expandBlockExits callNode s) :=
  Maintains.get.bind fun _ => (Maintains.lift _).bind fun _ => (Maintains.lift _).bind fun _ =>
    (Maintains.lift _).bind fun _ => (Maintains.mapM (placed_expandExit callNode) _).bind fun _ =>
      (ofGraphAndSets_placed.besidesCache.modifyCache _).bind fun _ => .pure _

theorem placed_nextWaiting (s : SetId) : Maintains Placed (nextWaiting s) := by
  refine ofGraphAndSets_placed.besidesCache.poll.bind fun _ c h => ?_
  simp only [popWaiting, ensures_bind, ensures_get]
  rw [ensures_liftExcept]
  refine ⟨fun r hr => ?_, fun _ _ => h⟩
  rw [ensures_of_ok (modifySet_eq_ok (reachedSet_eq_ok.1 hr)), ensures_pure]
  refine h.putSet fun n hn => h.mem_lt (reachedSet_eq_ok.1 hr) ?_
  rwa [← ReachedSet.mem_nodes, ReachedSet.nodes_pop] at hn

end Action

theorem Action.placed_removeSubtree (s : SetId) (n : NodeId) (adjustment : Adjustment Tracked) :
    Maintains Placed (removeSubtree s n adjustment) := by
  intro c h
  cases hr : c.reachedSet s with
  | error fault =>
    simp only [Ensures, removeSubtree, hr]
    exact h
  | ok r =>
    have hr := reachedSet_eq_ok.1 hr
    rw [ensures_removeSubtree hr]
    have hself : (c.putRegion s ⟨c.graph, r⟩).Placed := (putRegion_self hr).symm ▸ h
    refine Region.maintains_removeSubtree (P := fun region => (c.putRegion s region).Placed)
      (fun plan region hregion => ?_) n ⟨c.graph, r⟩ hself
    have hnow : (c.putRegion s region).sets[s]? = some region.reached := by
      rw [putRegion, getElem?_setIfInBounds hr, if_pos rfl]
    have hnext := hregion.removal hnow adjustment plan
    rwa [putRegion, putRegion, Array.setIfInBounds_setIfInBounds] at hnext

/-! ### Runs and repairs -/

theorem Exploring.actionsKeep_placed : ActionsKeep (fun _ c => c.Placed) fun _ _ _ => True where
  refl := fun _ _ h => h
  trans := fun _ _ _ _ h => h
  next := fun _ c s h =>
    (Action.placed_nextWaiting s c h).imp (fun _ _ h' => ⟨h', fun _ _ => trivial⟩) fun _ _ => id
  cover := fun _ s n state _ => Action.placed_addOrCover s n state
  resolve := fun _ n => Action.placed_resolveCall n
  expand := fun _ n s => Action.placed_expandBlockExits n s

theorem placed_run (program : Program) (fuel : Nat) : Maintains Placed (run program fuel) := by
  have hexplore : Maintains Placed (Exploring.explore program fuel [] .topLevel) :=
    fun c h => Exploring.actionsKeep_placed.explore c program fuel [] .topLevel c h
  exact (hexplore.adaptExcept _).bind fun _ => Maintains.get.bind fun _ => .liftFault _

theorem repairsKeep_placed : RepairsKeep Placed where
  rest := ofGraphAndSets_placed
  remove := Action.placed_removeSubtree
  fresh := Action.placed_cacheNewSet

end Blockwise
