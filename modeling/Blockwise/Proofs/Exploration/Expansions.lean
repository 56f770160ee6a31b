import Blockwise.Proofs.Exploration.Regular
import Blockwise.Proofs.Exploration.Steps

/-!
The expansions of exits. A call node has one child for each exit of its block that was expanded
there, and the child is linked to the exit. Below one node no exit is expanded twice: the actions of
an exploration link a node only when they add it, and they add none for an exit that has a view at
the call node already.
-/
namespace Blockwise

open Context

variable {c c' d : Context} {n a x e parent : NodeId} {p : Node State Tracked} {r : ReachedSet}
  {s : SetId} {exits nodes : List NodeId}

theorem Graph.edge_of_addNode {σ π : Type} {g : Graph σ π} {state : σ} {precision : π}
    {a b : NodeId}
    (he : (g.addNode state precision s).Edge a b) : g.Edge a b := by
  obtain ⟨m, hm, hb⟩ := he
  rcases Graph.node?_addNode_eq_some_iff.1 hm with ⟨-, rfl⟩ | hm
  · exact absurd hb (SortedSet.not_mem_empty b)
  · exact ⟨m, hm, hb⟩

namespace Context

def ExpandedAt (c : Context) (n x e : NodeId) : Prop :=
  c.graph.Edge n e ∧ c.links.reducedOf e = some x

/-- Below one node an exit is expanded once at most. -/
structure Unrepeated (c : Context) : Prop where
  once : ∀ {n x e e'}, c.ExpandedAt n x e → c.ExpandedAt n x e' → e = e'
  linked_lt : ∀ {e x}, c.links.reducedOf e = some x → e < c.graph.size
  block : ∀ {K s}, c.cache.lookup K = some s → ∃ b, c.partitioning.block? K.block = some b

structure Within (c c' : Context) : Prop where
  size : c.graph.size ≤ c'.graph.size
  edge : ∀ {a b}, c'.graph.Edge a b → c.graph.Edge a b
  exit : ∀ {e x}, c'.links.reducedOf e = some x → c.links.reducedOf e = some x

theorem Within.refl (c : Context) : c.Within c := ⟨Nat.le_refl _, id, id⟩

theorem within_cacheSet (w : c.Within d) (K : Key) : c.Within (d.cacheSet K) where
  size := by
    have hsize : (d.cacheSet K).graph.size = d.graph.size + 1 := by
      simp [cacheSet, addReachedSet, Graph.size, Graph.addNode]
    rw [hsize]
    exact Nat.le_succ_of_le w.size
  edge := fun he => w.edge (Graph.edge_of_addNode he)
  exit := fun hx => w.exit hx

namespace Unrepeated

theorem within (u : c.Unrepeated) (w : c.Within c')
    (hblock : ∀ {K s}, c'.cache.lookup K = some s → ∃ b, c'.partitioning.block? K.block = some b) :
    c'.Unrepeated where
  once := fun he he' => u.once ⟨w.edge he.1, w.exit he.2⟩ ⟨w.edge he'.1, w.exit he'.2⟩
  linked_lt := fun hx => Nat.lt_of_lt_of_le (u.linked_lt (w.exit hx)) w.size
  block := hblock

theorem quiet (u : c.Unrepeated) (sets : Array ReachedSet) (statistics : Statistics)
    (shutdown : Shutdown) : Unrepeated { c with sets, statistics, shutdown } :=
  ⟨u.once, u.linked_lt, u.block⟩

theorem cacheSet (u : c.Unrepeated) {K : Key} {b : Block}
    (hb : c.partitioning.block? K.block = some b) : (c.cacheSet K).Unrepeated := by
  refine u.within (within_cacheSet (.refl c) K) fun {K' s} hs => ?_
  rw [lookup_cacheSet] at hs
  split at hs
  · rename_i hK
    exact ⟨b, hK ▸ hb⟩
  · exact u.block hs

theorem sprout (u : c.Unrepeated) {state : State} {cover : Option NodeId}
    (hf : c.Fertile parent p r cover) : (c.sprout parent p r state cover).Unrepeated := by
  have hold : ∀ {a x e}, (c.sprout parent p r state cover).ExpandedAt a x e →
      c.ExpandedAt a x e := by
    rintro a x e ⟨he, hx⟩
    rcases (Graph.edge_sprout hf.parent_lt hf.cover_lt).1 he with he | ⟨-, rfl⟩
    · exact ⟨he, hx⟩
    · exact absurd (u.linked_lt hx) (Nat.lt_irrefl _)
  refine ⟨fun he he' => u.once (hold he) (hold he'), fun hx => ?_, u.block⟩
  change _ < (c.graph.sprout parent state p.precision p.set cover).size
  rw [Graph.size_sprout]
  exact Nat.lt_succ_of_lt (u.linked_lt hx)

end Unrepeated

/-! ### Expanding a list of exits -/

def WaitsAsView (c : Context) (n x e : NodeId) : Prop :=
  ∃ p b mx m r, c.graph.Live n p ∧ c.partitioning.block? p.state.location = some b ∧
    c.graph.Live x mx ∧ c.graph.Live e m ∧ m.state = c.reducer.expand p.state b mx.state ∧
    m.precision = p.precision ∧ m.set = p.set ∧ c.sets[p.set]? = some r ∧ e ∈ r.waitlist

/-- `c'` has one more node below `n` for each of the exits, in their order. -/
structure Grafts (c : Context) (n : NodeId) (exits nodes : List NodeId) (c' : Context) : Prop where
  extension : c.Extends c'
  cache : c'.cache = c.cache
  size : c'.graph.size = c.graph.size + exits.length
  nodes_eq : nodes = List.range' c.graph.size exits.length
  expandedAt_iff : ∀ {a x e}, c'.ExpandedAt a x e ↔
    c.ExpandedAt a x e ∨ a = n ∧ (x, e) ∈ exits.zip nodes
  linked_lt : ∀ {e x}, c'.links.reducedOf e = some x → e < c'.graph.size
  views : ∀ {x e}, (x, e) ∈ exits.zip nodes → c'.WaitsAsView n x e
  waits : ∀ {t : SetId} {q : ReachedSet}, c.sets[t]? = some q →
    ∃ q', c'.sets[t]? = some q' ∧ ∀ k ∈ q.waitlist, k ∈ q'.waitlist
  others : ∀ {t : SetId} {p}, c.graph.Live n p → p.set ≠ t → c'.sets[t]? = c.sets[t]?

namespace Grafts

theorem refl (hlt : ∀ {e x}, c.links.reducedOf e = some x → e < c.graph.size) :
    c.Grafts n [] [] c where
  extension := .refl c
  cache := rfl
  size := rfl
  nodes_eq := rfl
  expandedAt_iff := by simp
  linked_lt := hlt
  views := by simp
  waits := fun hq => ⟨_, hq, fun _ hk => hk⟩
  others := fun _ _ => rfl

theorem length_eq (g : c.Grafts n exits nodes c') : nodes.length = exits.length := by
  rw [g.nodes_eq, List.length_range']

theorem waitsAsView (g : c.Grafts n exits nodes c') (h : c.WaitsAsView a x e) :
    c'.WaitsAsView a x e := by
  obtain ⟨p, b, mx, m, r, hp, hb, hx, hm, hstate, hprec, hset, hr, hw⟩ := h
  have ev := g.extension
  obtain ⟨p', hp', hps, hpp, hpset, -⟩ := ev.node hp
  obtain ⟨mx', hx', hxs, -⟩ := ev.node hx
  obtain ⟨m', hm', hms, hmp, hmset, -⟩ := ev.node hm
  obtain ⟨r', hr', hwait⟩ := g.waits hr
  refine ⟨p', b, mx', m', r', hp', ?_, hx', hm', ?_, ?_, ?_, hpset ▸ hr', hwait e hw⟩
  · rw [ev.evolves.partitioning, hps, hb]
  · rw [hms, hstate, ev.evolves.reducer, hps, hxs]
  · rw [hmp, hprec, hpp]
  · rw [hmset, hset, hpset]

theorem trans {exits' nodes' : List NodeId} (g : c.Grafts n exits nodes d)
    (g' : d.Grafts n exits' nodes' c') : c.Grafts n (exits ++ exits') (nodes ++ nodes') c' where
  extension := g.extension.trans g'.extension
  cache := g'.cache.trans g.cache
  size := by rw [g'.size, g.size, List.length_append, Nat.add_assoc]
  nodes_eq := by
    rw [g'.nodes_eq, g.nodes_eq, g.size, List.length_append, List.range'_append_1]
  expandedAt_iff := by
    intro a x e
    rw [g'.expandedAt_iff, g.expandedAt_iff, List.zip_append g.length_eq.symm, List.mem_append,
      and_or_left, or_assoc]
  linked_lt := g'.linked_lt
  views := by
    intro x e he
    rw [List.zip_append g.length_eq.symm, List.mem_append] at he
    exact he.elim (fun he => g'.waitsAsView (g.views he)) g'.views
  waits := by
    intro t q hq
    obtain ⟨q', hq', hsub⟩ := g.waits hq
    obtain ⟨q'', hq'', hsub'⟩ := g'.waits hq'
    exact ⟨q'', hq'', fun k hk => hsub' k (hsub k hk)⟩
  others := by
    intro t p hp ht
    obtain ⟨p', hp', -, -, hset, -⟩ := g.extension.node hp
    exact (g'.others hp' (hset ▸ ht)).trans (g.others hp ht)

theorem exists_expandedAt {fresh : List NodeId} (g : c.Grafts n fresh nodes c')
    (hfresh : ∀ x, x ∈ fresh ↔ x ∈ exits ∧ ∀ e, ¬ c.ExpandedAt n x e) (hx : x ∈ exits) :
    ∃ e, c'.ExpandedAt n x e := by
  by_cases hold : ∃ e, c.ExpandedAt n x e
  · obtain ⟨e, he⟩ := hold
    exact ⟨e, g.expandedAt_iff.2 (Or.inl he)⟩
  · have hnew : x ∈ fresh := (hfresh x).2 ⟨hx, not_exists.1 hold⟩
    obtain ⟨i, hi, rfl⟩ := List.mem_iff_getElem.1 hnew
    have hzip : i < (fresh.zip nodes).length := by
      rw [List.length_zip, g.length_eq, Nat.min_self]
      exact hi
    have hmem := List.getElem_mem hzip
    rw [List.getElem_zip] at hmem
    exact ⟨_, g.expandedAt_iff.2 (Or.inr ⟨rfl, hmem⟩)⟩

theorem unrepeated (u : c.Unrepeated) (g : c.Grafts n exits nodes c') (hnodup : exits.Nodup)
    (hfresh : ∀ x ∈ exits, ∀ e, ¬ c.ExpandedAt n x e) : c'.Unrepeated where
  once := by
    intro a x e e' he he'
    have hpaired : ∀ {e}, (x, e) ∈ exits.zip nodes → x ∈ exits := fun he => (List.of_mem_zip he).1
    rcases g.expandedAt_iff.1 he with he | ⟨rfl, he⟩ <;>
      rcases g.expandedAt_iff.1 he' with he' | ⟨ha, he'⟩
    · exact u.once he he'
    · exact absurd (ha ▸ he) (hfresh x (hpaired he') e)
    · exact absurd he' (hfresh x (hpaired he) e')
    · -- an exit stands at one place of the list only
      obtain ⟨i, hi, hxe⟩ := List.mem_iff_getElem.1 he
      obtain ⟨j, hj, hxe'⟩ := List.mem_iff_getElem.1 he'
      rw [List.getElem_zip, Prod.mk.injEq] at hxe hxe'
      have hij : i = j := hnodup.getElem_inj_iff.1 (hxe.1.trans hxe'.1.symm)
      subst hij
      exact hxe.2.symm.trans hxe'.2
  linked_lt := g.linked_lt
  block := by
    intro K s hs
    rw [g.cache] at hs
    rw [g.extension.evolves.partitioning]
    exact u.block hs

end Grafts

theorem expandedAt_linkNew (h : c.Structured)
    (hlt : ∀ {e x}, c.links.reducedOf e = some x → e < c.graph.size) (hf : c.Fertile n p r none)
    {state : State} {y : NodeId} :
    ExpandedAt { c.sprout n p r state none with links := c.links.linkExpanded c.graph.size x }
      a y e ↔ c.ExpandedAt a y e ∨ a = n ∧ y = x ∧ e = c.graph.size := by
  simp only [ExpandedAt, Links.reducedOf_linkExpanded]
  change (c.graph.sprout n state p.precision p.set none).Edge a e ∧ _ ↔ _
  rw [Graph.edge_sprout hf.parent_lt hf.cover_lt]
  constructor
  · rintro ⟨he | ⟨ha, rfl⟩, hy⟩
    · rw [if_neg (Nat.ne_of_gt (h.lt_size_of_edge he))] at hy
      exact Or.inl ⟨he, hy⟩
    · rw [if_pos rfl, Option.some.injEq] at hy
      exact Or.inr ⟨ha, hy.symm, rfl⟩
  · rintro (⟨he, hy⟩ | ⟨rfl, rfl, rfl⟩)
    · exact ⟨Or.inl he, by rw [if_neg (Nat.ne_of_gt (hlt hy)), hy]⟩
    · exact ⟨Or.inr ⟨rfl, rfl⟩, if_pos rfl⟩

theorem grafts_expand (h : c.Structured)
    (hlt : ∀ {e x}, c.links.reducedOf e = some x → e < c.graph.size)
    (hp : c.graph.Live n p) (hr : c.sets[p.set]? = some r) {b : Block}
    (hb : c.partitioning.block? p.state.location = some b) {mx : Node State Tracked}
    (hx : c.graph.Live x mx) : c.Grafts n [x] [c.graph.size]
      { c.sprout n p r (c.reducer.expand p.state b mx.state) none with
        links := c.links.linkExpanded c.graph.size x } := by
  have hf : c.Fertile n p r none := ⟨hp, hr, by simp⟩
  have hunlinked : c.links.reducedOf c.graph.size = none :=
    Option.eq_none_iff_forall_ne_some.2 fun _ hy => Nat.lt_irrefl _ (hlt hy)
  generalize hstate : c.reducer.expand p.state b mx.state = state
  have hlive : ∀ {k q}, c.graph.Live k q → (c.sprout n p r state none).graph.Live k
      (c.graph.grown n none k q) := live_sprout hf
  have hnew : (c.sprout n p r state none).graph.Live c.graph.size
      (c.graph.sprouted n state p.precision p.set none) :=
    (live_sprout_iff hf).2 (Or.inl ⟨rfl, rfl⟩)
  have hsets : ∀ t, (c.sprout n p r state none).sets[t]? =
      if p.set = t then some (r.add c.graph.size) else c.sets[t]? := fun t => sets_sprout hf
  exact {
    extension := (extends_sprout hf).trans (extends_linkExpanded hunlinked)
    cache := rfl
    size := Graph.size_sprout
    nodes_eq := rfl
    expandedAt_iff := by
      intro a y e
      rw [List.zip_cons_cons, List.zip_nil_right, List.mem_singleton, Prod.mk.injEq]
      exact expandedAt_linkNew h hlt hf
    linked_lt := by
      intro e y hy
      change e < (c.graph.sprout n state p.precision p.set none).size
      rw [Graph.size_sprout]
      rw [Links.reducedOf_linkExpanded] at hy
      split at hy
      · rename_i he
        exact he ▸ Nat.lt_succ_self _
      · exact Nat.lt_succ_of_lt (hlt hy)
    views := by
      intro y e he
      simp only [List.zip_cons_cons, List.zip_nil_right, List.mem_singleton, Prod.mk.injEq] at he
      obtain ⟨rfl, rfl⟩ := he
      refine ⟨_, b, _, _, r.add c.graph.size, hlive hp, hb, hlive hx, hnew, hstate.symm, rfl, rfl,
        (hsets _).trans (if_pos rfl), ?_⟩
      exact List.mem_append_right _ (List.mem_singleton.2 rfl)
    waits := by
      intro t q hq
      by_cases ht : p.set = t
      · subst ht
        cases Option.some.inj (hr.symm.trans hq)
        exact ⟨_, (hsets _).trans (if_pos rfl), fun k hk => List.mem_append_left _ hk⟩
      · exact ⟨q, (hsets t).trans ((if_neg ht).trans hq), fun _ hk => hk⟩
    others := by
      intro t q hq ht
      cases hp.unique hq
      exact (hsets t).trans (if_neg ht) }

end Context

namespace Action

theorem expandExits_grafts (h : c.Structured)
    (hlt : ∀ {e x}, c.links.reducedOf e = some x → e < c.graph.size)
    (hn : ∃ p b, c.graph.Live n p ∧ c.partitioning.block? p.state.location = some b)
    (hx : ∀ x ∈ exits, ∃ m, c.graph.Live x m) :
    Ensures (exits.mapM (expandExit n)) c
      (fun nodes c' => c'.Structured ∧ c.Grafts n exits nodes c')
      (fun _ _ => False) := by
  induction exits generalizing c with
  | nil => exact ⟨h, .refl hlt⟩
  | cons x exits ih =>
    obtain ⟨p, b, hp, hb⟩ := hn
    obtain ⟨r, hr, -⟩ := h.set_of_live hp
    obtain ⟨mx, hmx⟩ := hx x (List.mem_cons_self ..)
    have hf : c.Fertile n p r none := ⟨hp, hr, by simp⟩
    have g := grafts_expand h hlt hp hr hb hmx
    have hs : Structured { c.sprout n p r (c.reducer.expand p.state b mx.state) none with
        links := c.links.linkExpanded c.graph.size x } := { h.sprout hf with }
    rw [List.mapM_cons]
    simp only [ensures_bind, ensures_of_ok (expandExit_eq_ok hp hr hb hmx), ensures_pure]
    refine (ih hs g.linked_lt ?_ fun y hy => ?_).imp (fun nodes d hd => ⟨hd.1, g.trans hd.2⟩)
      fun _ _ => id
    · obtain ⟨p', hp', hps, -⟩ := g.extension.node hp
      exact ⟨p', b, hp', by rw [g.extension.evolves.partitioning, hps, hb]⟩
    · obtain ⟨m, hm⟩ := hx y (List.mem_cons_of_mem _ hy)
      obtain ⟨m', hm', -⟩ := g.extension.node hm
      exact ⟨m', hm'⟩

theorem expandBlockExits_grafts (h : c.Structured) (u : c.Unrepeated) (hp : c.graph.Live n p)
    {b : Block} (hb : c.partitioning.block? p.state.location = some b) {K : Key}
    (hexits : c.blockExits s = .ok exits) (hK : c.keyOf s = .ok K) :
    Ensures (expandBlockExits n s) c
      (fun nodes c' => ∃ fresh d, fresh.Pairwise (· < ·) ∧
        (∀ x, x ∈ fresh ↔ x ∈ exits ∧ ∀ e, ¬ c.ExpandedAt n x e) ∧
        d.Structured ∧ c.Grafts n fresh nodes d ∧
        c' = { d with cache := d.cache.setReturnEntry K exits })
      (fun _ _ => False) := by
  rw [ensures_expandBlockExits_iff hexits hK hp]
  have hmem : ∀ x, x ∈ exits.filter (· ∉ p.children.toList.filterMap c.links.reducedOf) ↔
      x ∈ exits ∧ ∀ e, ¬ c.ExpandedAt n x e := by
    intro x
    have hedge : ∀ e, c.graph.Edge n e ↔ e ∈ p.children.toList := by
      refine fun e => ⟨fun h => ?_, fun he => ⟨p, hp.1, he⟩⟩
      obtain ⟨m, hm, he⟩ := h
      cases hm.symm.trans hp.1
      exact he
    simp [ExpandedAt, hedge]
  have hlive : ∀ x ∈ exits.filter (· ∉ p.children.toList.filterMap c.links.reducedOf),
      ∃ m, c.graph.Live x m := fun x hx => live_of_mem_blockExits hexits ((hmem x).1 hx).1
  refine (expandExits_grafts h u.linked_lt ⟨p, b, hp, hb⟩ hlive).imp (fun nodes d hd => ?_)
    fun _ _ => id
  exact ⟨_, d, (sorted_blockExits hexits).filter _, hmem, hd.1, hd.2, rfl⟩

theorem expandExits_of_no_block (hp : c.graph.Live n p)
    (hb : c.partitioning.block? p.state.location = none) (exits : List NodeId) :
    Ensures (exits.mapM (expandExit n)) c (fun _ c' => c' = c) (fun _ c' => c' = c) := by
  cases exits with
  | nil => exact rfl
  | cons x exits =>
    have hno : c.partitioning.block p.state.location = .error (.noBlockAt p.state.location) := by
      simp [Partitioning.block, hb]
    rw [List.mapM_cons]
    simp only [expandExit, ensures_bind, ensures_get,
      ensures_lift_of_ok (Graph.liveNode_eq_ok.2 hp), hno]
    exact rfl

/-! ### The actions of an exploration -/

theorem unrepeated_addSuccessor (h : c.Structured) (u : c.Unrepeated) (parent : NodeId)
    (state : State) :
    Ensures (addSuccessor parent state) c (fun _ => Unrepeated) (fun _ => Unrepeated) := by
  refine (addSuccessor_sprouts h parent state).imp (fun _ c' hc' => ?_) fun _ c' hc' => hc' ▸ u
  obtain ⟨p, r, hf, rfl⟩ := hc'
  exact u.sprout hf

theorem unrepeated_addOrCover (h : c.Structured) (u : c.Unrepeated)
    (hn : ∃ m, c.graph.node? n = some m ∧ m.set = s) (state : State) :
    Ensures (addOrCover s n state) c (fun _ => Unrepeated) (fun _ => Unrepeated) := by
  refine (addOrCover_sprouts h hn state).imp (fun _ c' hc' => ?_) fun _ c' hc' => hc' ▸ u
  obtain ⟨p, r, cover, hf, rfl⟩ := hc'
  exact u.sprout hf

theorem unrepeated_newReachedSet (u : c.Unrepeated) (state : State) (precision : Tracked) :
    (c.addReachedSet state precision).Unrepeated := by
  refine u.within ⟨?_, Graph.edge_of_addNode, id⟩ u.block
  simp [addReachedSet, Graph.size, Graph.addNode]

theorem unrepeated_resolveCall (n : NodeId) : Maintains Unrepeated (resolveCall n) := by
  intro c u
  refine (resolveCall_cases c n).imp (fun res c' hc' => ?_) fun _ _ hc' => hc'.2 ▸ u
  obtain ⟨K, hK, answer⟩ := hc'
  cases answer with
  | stored => exact ⟨u.once, u.linked_lt, u.block⟩
  | similar hno hs =>
    obtain ⟨-, -, ⟨-, rfl⟩ | ⟨-, -, rfl⟩⟩ := Cache.lookupSimilar_eq_some hs <;>
      exact ⟨u.once, u.linked_lt, u.block⟩
  | fresh =>
    obtain ⟨m, b, -, hb, -, -, hblock, -⟩ := reducedFor_spec hK
    have hfresh : (c.cacheSet K).Unrepeated := u.cacheSet (hblock ▸ hb)
    exact ⟨hfresh.once, hfresh.linked_lt, hfresh.block⟩

theorem unrepeated_expandBlockExits (h : c.Structured) (u : c.Unrepeated) (n : NodeId)
    (s : SetId) :
    Ensures (expandBlockExits n s) c (fun _ => Unrepeated) (fun _ => Unrepeated) := by
  have recorded : ∀ {d : Context} (K : Key) (exits : List NodeId), d.Unrepeated →
      Unrepeated { d with cache := d.cache.setReturnEntry K exits } :=
    fun _ _ ud => ⟨ud.once, ud.linked_lt, ud.block⟩
  refine ensures_expandBlockExits (fun _ => u) fun {exits K p} hexits hK hp => ?_
  cases hb : c.partitioning.block? p.state.location with
  | none =>
    exact (expandExits_of_no_block hp hb _).imp (fun _ d hd => recorded K exits (hd ▸ u))
      fun _ d hd => hd ▸ u
  | some b =>
    rw [← ensures_expandBlockExits_iff hexits hK hp]
    refine (expandBlockExits_grafts h u hp hb hexits hK).imp (fun nodes c' hc' => ?_)
      fun _ _ => False.elim
    obtain ⟨fresh, d, hsorted, hfresh, -, g, rfl⟩ := hc'
    exact recorded K exits
      (g.unrepeated u (hsorted.imp Nat.ne_of_lt) fun x hx => ((hfresh x).1 hx).2)

theorem unrepeated_nextWaiting (s : SetId) : Maintains Unrepeated (nextWaiting s) := by
  have hpoll : Maintains Unrepeated poll := by
    intro c u
    refine poll_spec.imp (fun _ d hd => ?_) fun _ d hd => hd.2 ▸ u
    obtain ⟨shutdown, rfl⟩ := hd
    exact u.quiet c.sets c.statistics shutdown
  have hmodify : ∀ f, Maintains Unrepeated (modifySet s f) := fun f =>
    Maintains.get.bind fun _ => (Maintains.lift _).bind fun r =>
      .modify fun c u => u.quiet _ c.statistics c.shutdown
  exact hpoll.bind fun _ => Maintains.get.bind fun _ => (Maintains.lift _).bind fun _ =>
    (hmodify _).bind fun _ => .pure _

end Action

structure Context.UnrepeatedSince (c₀ c : Context) : Prop extends c₀.RegularSince c where
  unrepeated : c.Unrepeated

theorem unrepeatedSince {α ε : Type} {c₀ : Context} {action : EStateM ε Context α}
    (hr : Maintains c₀.RegularSince action)
    (hu : ∀ c, c₀.UnrepeatedSince c →
      Ensures action c (fun _ => Unrepeated) (fun _ => Unrepeated)) :
    Maintains c₀.UnrepeatedSince action := fun c h =>
  ((hr c h.toRegularSince).and (hu c h)).imp (fun _ _ hd => ⟨hd.1, hd.2⟩) fun _ _ hd => ⟨hd.1, hd.2⟩

theorem Exploring.actionsKeep_unrepeatedSince : ActionsKeep UnrepeatedSince
    fun c s n => ∃ m, c.graph.node? n = some m ∧ m.set = s where
  refl := fun _ _ h => ⟨.refl h.regular, h.unrepeated⟩
  trans := fun _ _ _ h h' => ⟨h.toRegularSince.trans h'.toRegularSince, h'.unrepeated⟩
  next := by
    intro c₀ c s h
    have hnext := actionsKeep_regularSince.next s h.toRegularSince
    refine (hnext.and (Action.unrepeated_nextWaiting s c h.unrepeated)).imp (fun _ d hd => ?_)
      fun _ d hd => ⟨hd.1, hd.2⟩
    exact ⟨⟨hd.1.1, hd.2⟩, hd.1.2⟩
  cover := by
    rintro c₀ s n state ⟨m, hm, rfl⟩
    refine unrepeatedSince (Action.regular_addOrCover hm state) fun c h => ?_
    obtain ⟨m', hm', -, hset, -⟩ := h.evolves.node hm
    exact Action.unrepeated_addOrCover h.regular.toStructured h.unrepeated ⟨m', hm', hset⟩ state
  resolve := fun _ n => unrepeatedSince (Action.regular_resolveCall n) fun c h =>
    Action.unrepeated_resolveCall n c h.unrepeated
  expand := fun _ n s => unrepeatedSince (Action.regular_expandBlockExits n s) fun c h =>
    Action.unrepeated_expandBlockExits h.regular.toStructured h.unrepeated n s

theorem unrepeated_run (program : Program) (fuel : Nat) (h : c.Regular) (u : c.Unrepeated) :
    (finalState (run program fuel c)).Unrepeated := by
  have hexplore : Maintains c.UnrepeatedSince (Exploring.explore program fuel [] .topLevel) :=
    Exploring.actionsKeep_unrepeatedSince.explore c program fuel [] .topLevel
  have hrun : Maintains c.UnrepeatedSince (run program fuel) :=
    (hexplore.adaptExcept _).bind fun _ => Maintains.get.bind fun _ => .liftFault _
  exact (hrun.final ⟨.refl h, u⟩).unrepeated

end Blockwise
