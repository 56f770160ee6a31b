import Blockwise.Proofs.Exploration.Views
import Blockwise.Proofs.Outcome

/-!
The actions of the exploration as steps of growth. At a live node they find all that they ask for,
so none of them fails; only a poll does, when the shutdown flag is raised.
-/
namespace Blockwise

open Relation (ReflTransGen)
open Context

theorem Context.Extends.edge {c c' : Context} (e : c.Extends c') (h : c.Structured) {a b : NodeId}
    (he : c.graph.Edge a b) : c'.graph.Edge a b := by
  obtain ⟨m, -, hm, -⟩ := h.live_of_edge he
  obtain ⟨m', hm', -, -, -, -, -, hsub⟩ := e.node hm
  obtain ⟨m₀, hm₀, hb⟩ := he
  cases Option.some.inj (hm₀.symm.trans hm.1)
  exact ⟨m', hm'.1, hsub b hb⟩

theorem unfolds_spec {program : Program} {c c' : Context} {n : NodeId} (h : c.Sound)
    (st : ReflTransGen (Unfolds program n) c c') :
    c'.Sound ∧ c.Extends c' ∧ (∀ k, c'.links.setOfEntry k = c.links.setOfEntry k) ∧
      ∀ k, c'.Waits k → c.Open k := by
  induction st with
  | refl => exact ⟨h, .refl c, fun _ => rfl, fun _ => Or.inl⟩
  | tail _ st ih =>
    obtain ⟨hs, he, hk, hw⟩ := ih
    obtain ⟨hs', he'⟩ := st.spec hs
    refine ⟨hs', he.trans he', fun k => st.entry.trans (hk k), fun k hwk => ?_⟩
    rcases st.waits hs.toStructured hwk with hwk | hwk
    · exact hw k hwk
    · exact Or.inr (he.evolves.size_le.trans hwk)

theorem Resolves.withStatistics {c c' : Context} {n : NodeId} {t : SetId}
    (st : Resolves n c t c') (statistics : Statistics) :
    Resolves n { c with statistics } t { c' with statistics } := by
  cases st with
  | stored hp ht hK hs => exact .stored (c := { c with statistics }) hp ht hK hs
  | similar hp ht hK hs => exact .similar (c := { c with statistics }) hp ht hK hs
  | fresh hp ht hK hs => exact .fresh (c := { c with statistics }) hp ht hK hs

namespace Action

variable {program : Program} {c : Context} {n : NodeId} {p : Node State Tracked}

theorem addOrCover_spec (h : c.Sound) (hp : c.graph.Live n p) {state next : State}
    {precision : Tracked} (ht : c.task p.set n = .ok (.successors state precision))
    (hn : next ∈ program.successors state precision) :
    Ensures (addOrCover p.set n next) c
      (fun _ c' => Unfolds program n c c' ∧ c'.views n = c.views n ++ [(some next, none)])
      (fun _ _ => False) := by
  obtain ⟨r, hr, -⟩ := h.set_of_live hp
  have hlive : ∀ k ∈ r.nodes.toList, ∃ m, c.graph.Live k m := by
    intro k hk
    obtain ⟨m, hm, -⟩ := h.live_of_mem hr hk
    exact ⟨m, hm⟩
  obtain ⟨cover, hc⟩ := Graph.exists_findCover hlive next
  simp only [addOrCover, ensures_bind, ensures_get, ensures_lift_of_ok (reachedSet_eq_ok.2 hr),
    ensures_lift_of_ok hc]
  have hf := fertile_of_findCover h.toStructured hp hr hc
  have hnew : (c.sprout n p r next cover).views n = c.views n ++ [(some next, none)] := by
    refine (views_sprout h.toStructured hf c.links fun _ _ => rfl).trans ?_
    rw [if_pos rfl, h.reducedOf_size]
  have st := Unfolds.successor hp hr ht hn hc
  cases cover with
  | none =>
    simp only [ensures_bind, ensures_of_ok (addSuccessor_eq_ok hp hr), ensures_pure]
    exact ⟨st, hnew⟩
  | some k =>
    obtain ⟨m, hk, -⟩ := hf.cover k rfl
    simp only [ensures_bind, ensures_of_ok (addCoveredSuccessor_eq_ok hp hr hk), ensures_pure]
    exact ⟨st, hnew⟩

theorem resolveCall_spec (h : c.Structured) (hp : c.graph.Live n p)
    (ht : c.task p.set n = .ok .call) : Ensures (resolveCall n) c
      (fun res c' => (∃ st, Resolves n { c with statistics := st } res.set c') ∧
        (c'.cache.aggressive = true ∨ ∃ K, c'.cache.lookup K = some res.set))
      (fun _ _ => False) := by
  obtain ⟨K, hK⟩ := exists_reducedFor h hp ht
  refine (resolveCall_cases c n).imp (fun res c' hc' => ?_) fun fault _ hc' => ?_
  · obtain ⟨K', hK', answer⟩ := hc'
    cases hK.symm.trans hK'
    cases answer with
    | stored hs => exact ⟨⟨_, (Resolves.stored hp ht hK hs).withStatistics _⟩, Or.inr ⟨K, hs⟩⟩
    | similar hno hs =>
      obtain ⟨hagg, -, ⟨-, rfl⟩ | ⟨-, -, rfl⟩⟩ := Cache.lookupSimilar_eq_some hs <;>
        exact ⟨⟨_, (Resolves.similar hp ht hK hs).withStatistics _⟩, Or.inl hagg⟩
    | fresh hno hs =>
      exact ⟨⟨_, (Resolves.fresh hp ht hK hno).withStatistics _⟩,
        Or.inr ⟨K, lookup_cacheSet.trans (if_pos rfl)⟩⟩
  · cases hK.symm.trans hc'.1

theorem expandExit_eq_ok {b : Block} {r : ReachedSet} {x : NodeId} {mx : Node State Tracked}
    (hp : c.graph.Live n p) (hr : c.sets[p.set]? = some r)
    (hb : c.partitioning.block? p.state.location = some b) (hmx : c.graph.Live x mx) :
    expandExit n x c = .ok c.graph.size
      { c.sprout n p r (c.reducer.expand p.state b mx.state) none with
        links := c.links.linkExpanded c.graph.size x } := by
  rw [← ensures_eq_ok_iff]
  simp only [expandExit, modifyLinks, ensures_bind, ensures_get, ensures_modify, ensures_pure,
    ensures_lift_of_ok (Graph.liveNode_eq_ok.2 hp),
    ensures_lift_of_ok (Partitioning.block_eq_ok_iff.2 hb),
    ensures_lift_of_ok (Graph.liveNode_eq_ok.2 hmx), ensures_of_ok (addSuccessor_eq_ok hp hr)]
  exact ⟨trivial, rfl⟩

theorem expandExit_spec (program : Program) (h : c.Sound) (hp : c.graph.Live n p)
    (ht : c.task p.set n = .ok .call) {t : SetId} (hs : c.links.setOfEntry n = some t) {b : Block}
    (hb : c.partitioning.block? p.state.location = some b) {x : NodeId} (hx : c.IsExit t x) :
    Ensures (expandExit n x) c
      (fun _ c' => Unfolds program n c c' ∧ c'.views n = c.views n ++ [c.viewOf p.state b x])
      (fun _ _ => False) := by
  obtain ⟨r, hr, -⟩ := h.set_of_live hp
  obtain ⟨-, -, -, mx, -, -, -, -, -, hmx, -⟩ := id hx
  have hf : c.Fertile n p r none := ⟨hp, hr, by simp⟩
  rw [ensures_of_ok (expandExit_eq_ok hp hr hb hmx)]
  refine ⟨.expand hp hr ht hs hx hb hmx, ?_⟩
  have hnew : (c.links.linkExpanded c.graph.size x).reducedOf c.graph.size = some x :=
    (Links.reducedOf_linkExpanded ..).trans (if_pos rfl)
  have hview : c.viewOf p.state b x = (some (c.reducer.expand p.state b mx.state), some x) := by
    rw [viewOf, stateOf, hmx.1]
    rfl
  refine (views_sprout h.toStructured hf _ fun k hlt => ?_).trans ?_
  · exact (Links.reducedOf_linkExpanded ..).trans (if_neg (Nat.ne_of_gt hlt))
  · rw [if_pos rfl, hview, ← hnew]

theorem expandExits_spec (program : Program) (h : c.Sound) (hp : c.graph.Live n p)
    (ht : c.task p.set n = .ok .call) {t : SetId} (hs : c.links.setOfEntry n = some t) {b : Block}
    (hb : c.partitioning.block? p.state.location = some b) {exits : List NodeId}
    (hx : ∀ x ∈ exits, c.IsExit t x) : Ensures (exits.mapM (expandExit n)) c
      (fun _ c' => ReflTransGen (Unfolds program n) c c' ∧
        c'.views n = c.views n ++ exits.map (c.viewOf p.state b))
      (fun _ _ => False) := by
  have loop := Ensures.mapM (l := exits) (f := expandExit n) (s := c)
    (B := fun _ _ => False)
    (I := fun done c' => ReflTransGen (Unfolds program n) c c' ∧
      c'.views n = c.views n ++ done.reverse.map (c.viewOf p.state b))
    (fun done x d hmem hd => by
      obtain ⟨hd, hdone⟩ := hd
      obtain ⟨hsd, he, hentry, -⟩ := unfolds_spec h hd
      obtain ⟨p', hp', hps, -, hset, -⟩ := he.node hp
      have ht' : d.task p'.set n = .ok .call := hset ▸ he.task h.toStructured ht
      have hb' : d.partitioning.block? p'.state.location = some b := by
        rw [he.evolves.partitioning, hps, hb]
      obtain ⟨-, -, -, mx, -, -, -, -, -, hmx, -⟩ := id (hx x hmem)
      refine (expandExit_spec program hsd hp' ht' ((hentry n).trans hs) hb'
        (he.isExit (hx x hmem))).imp (fun _ d' hd' => ⟨hd.tail hd'.1, ?_⟩) (fun _ _ => id)
      rw [hd'.2, hdone, hps, he.evolves.viewOf hmx.lt_size]
      simp)
    [] ⟨.refl, by simp⟩
  refine loop.imp (fun _ d hd => ⟨hd.1, ?_⟩) (fun _ _ => id)
  simpa using hd.2

theorem expandBlockExits_spec (program : Program) (h : c.Sound) (hp : c.graph.Live n p)
    (ht : c.task p.set n = .ok .call) {t : SetId} (hs : c.links.setOfEntry n = some t) {b : Block}
    (hb : c.partitioning.block? p.state.location = some b)
    (ha : c.cache.aggressive = true ∨ ∃ K, c.cache.lookup K = some t) :
    Ensures (expandBlockExits n t) c
      (fun _ c' => ReflTransGen (Unfolds program n) c c' ∧ (c.views n = [] →
        ∃ exits : List NodeId, exits.Pairwise (· < ·) ∧ (∀ x, x ∈ exits ↔ c.IsExit t x) ∧
          c'.views n = exits.map (c.viewOf p.state b)))
      (fun _ _ => False) := by
  obtain ⟨exits, hexits⟩ := exists_blockExits h.toStructured (h.call hs).hasBlock
  obtain ⟨r, f, -, hr, hf, -⟩ := (h.call hs).hasBlock
  have hkey : c.HasKey t ⟨f.state, f.precision, f.state.location⟩ := ⟨r, f, hr, hf, rfl⟩
  have hexit := mem_blockExits_iff h.toStructured hexits
  rw [ensures_expandBlockExits_iff hexits (keyOf_eq_ok.2 hkey) hp]
  refine (expandExits_spec program h hp ht hs hb fun x hx => ?_).imp (fun _ d hd => ?_)
    (fun _ _ => id)
  · exact (hexit x).1 (List.mem_filter.1 hx).1
  · obtain ⟨hd, hnew⟩ := hd
    obtain ⟨hsd, he, hentry, -⟩ := unfolds_spec h hd
    have st : Unfolds program n d { d with
        cache := d.cache.setReturnEntry ⟨f.state, f.precision, f.state.location⟩ exits } := by
      refine .record ((hentry n).trans hs) (he.hasKey hkey) ?_
        fun x hx => he.isExit ((hexit x).1 hx)
      rcases ha with ha | ⟨K', hK'⟩
      · exact Or.inl (he.aggressive.trans ha)
      · obtain ⟨-, hkey', -⟩ := h.stored hK'
        exact Or.inr (he.stored (hkey'.unique hkey ▸ hK'))
    refine ⟨hd.tail st, fun hbare => ⟨exits, sorted_blockExits hexits, hexit, ?_⟩⟩
    have hchildren : p.children.toList = [] := by
      have hmap := List.map_eq_nil_iff.1 hbare
      rwa [childrenOf, hp.1] at hmap
    have hviews : d.views n = exits.map (c.viewOf p.state b) := by
      rw [hnew, hbare, hchildren]
      simp
    exact hviews

end Action

end Blockwise
