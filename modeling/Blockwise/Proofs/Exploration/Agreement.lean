import Blockwise.Proofs.Context.Consistency
import Blockwise.Proofs.Exploration.Explore

/-!
Growing keeps links, recorded exits and reached sets in agreement, as long as the call nodes above
expanded nodes keep their links. Before any repair they do: what waits has no children yet.
-/
namespace Blockwise

namespace Context

/-- The call nodes above expanded nodes keep their links. -/
def KeepsCalls (c c' : Context) : Prop :=
  ∀ e x p, c.links.reducedOf e = some x → c.graph.Edge p e → c'.graph.Edge p e →
    c'.links.setOfEntry p = c.links.setOfEntry p

def AllStored (c : Context) : Prop :=
  ∀ s, 0 < s → s < c.sets.size → ∃ K, c.cache.lookup K = some s

end Context

open Context

variable {program : Program} {c c' : Context} {n : NodeId} {s t : SetId}

theorem Context.Returned.extend (hr : c.Returned) (e : c.Extends c')
    (hsame : ∀ K, c'.cache.returnEntry K = c.cache.returnEntry K) : c'.Returned := by
  intro K xs hxs
  rw [hsame] at hxs
  obtain ⟨s, hs, hmem⟩ := hr K xs hxs
  refine ⟨s, e.stored hs, fun x hx => ?_⟩
  obtain ⟨m, hm, hset⟩ := hmem x hx
  obtain ⟨m', hm', -, -, hset', -⟩ := e.node hm
  exact ⟨m', hm', hset'.trans hset⟩

theorem Context.Returned.record (hr : c.Returned) {K : Key} {exits : List NodeId}
    (h : c.Structured) (hs : c.cache.lookup K = some s) (hx : ∀ x ∈ exits, c.IsExit s x) :
    Returned { c with cache := c.cache.setReturnEntry K exits } := by
  intro K' xs hxs
  change Cache.returnEntry (Cache.setReturnEntry ..) K' = some xs at hxs
  rw [Cache.returnEntry_setReturnEntry] at hxs
  split at hxs
  · rename_i hK
    cases hxs
    refine ⟨s, hK ▸ hs, fun x hmem => ?_⟩
    obtain ⟨q, f, b, m, hq, -, -, hxq, -⟩ := hx x hmem
    exact h.live_of_mem hq hxq
  · exact hr K' xs hxs

theorem Resolves.returnEntry (st : Resolves n c t c') (K : Key) :
    c'.cache.returnEntry K = c.cache.returnEntry K := by
  cases st with
  | stored => rfl
  | @similar p K' t cache hp ht hK hs =>
    obtain ⟨imprecise, hcache⟩ := c.cache.lookupSimilar_snd K'
    rw [hs] at hcache
    subst hcache
    rfl
  | fresh => rfl

theorem Context.AllStored.extend (hst : c.AllStored) (e : c.Extends c')
    (hsize : c'.sets.size = c.sets.size) : c'.AllStored := by
  intro s hpos hs
  obtain ⟨K, hK⟩ := hst s hpos (hsize ▸ hs)
  exact ⟨K, e.stored hK⟩

theorem Unfolds.sets_size (st : Unfolds program n c c') : c'.sets.size = c.sets.size := by
  cases st with
  | record => rfl
  | successor => exact Array.size_setIfInBounds
  | expand => exact Array.size_setIfInBounds

theorem Context.Tidy.extend (ht : c.Tidy) (e : c.Extends c')
    (hsame : ∀ k, c'.links.reducedOf k = c.links.reducedOf k) : c'.Tidy := by
  intro k x hx
  rw [hsame] at hx
  obtain ⟨⟨m, hm⟩, mx, hmx⟩ := ht k x hx
  obtain ⟨m', hm', -⟩ := e.node hm
  obtain ⟨mx', hmx', -⟩ := e.node hmx
  exact ⟨⟨m', hm'⟩, mx', hmx'⟩

namespace Grows

variable (h : c.Sound) (g : Grows program c c')

include h g

theorem allStored (hst : c.AllStored) : c'.AllStored := by
  induction g with
  | refl => exact hst
  | quiet _ _ _ ih => exact ih
  | pop g hr ih => exact ih.extend (sound_pop (g.sound h) hr).2 Array.size_setIfInBounds
  | resolve g _ _ _ st ih =>
    have e := (st.spec (g.sound h)).2
    cases st with
    | stored => exact ih.extend e rfl
    | similar => exact ih.extend e rfl
    | @fresh p K hp ht hK hs =>
      intro s hpos hlt
      rcases Nat.lt_succ_iff_lt_or_eq.1 (Array.size_push .. ▸ hlt) with hlt | rfl
      · obtain ⟨K', hK'⟩ := ih s hpos hlt
        exact ⟨K', e.stored hK'⟩
      · exact ⟨K, lookup_cacheSet.trans (if_pos rfl)⟩
  | unfold g _ _ st ih => exact ih.extend (st.spec (g.sound h)).2 st.sets_size

theorem returned (hst : c.cache.aggressive = true → c.AllStored) (hr : c.Returned) :
    c'.Returned := by
  induction g with
  | refl => exact hr
  | quiet g _ _ ih => exact ih
  | pop g hset ih => exact ih.extend (sound_pop (g.sound h) hset).2 fun _ => rfl
  | resolve g _ _ _ st ih => exact ih.extend (st.spec (g.sound h)).2 st.returnEntry
  | @unfold d d' n g _ _ st ih =>
    have hd := g.sound h
    cases st with
    | successor hp hr' ht hn hc =>
      exact ih.extend (extends_sprout (fertile_of_findCover hd.toStructured hp hr' hc)) fun _ => rfl
    | expand hp hr' ht hs hx hb hm =>
      have st : Unfolds program n d _ := .expand hp hr' ht hs hx hb hm
      exact ih.extend (st.spec hd).2 fun _ => rfl
    | @record t K exits hs hK ha hx =>
      refine ih.record hd.toStructured ?_ hx
      rcases ha with ha | hK'
      · have hagg : c.cache.aggressive = true := by
          rw [← (g.toExtends h).aggressive, ha]
        obtain ⟨r, f, hr', -⟩ := id hK
        obtain ⟨_, _, _, _, _, _, hpos, -⟩ := hd.call hs
        obtain ⟨K', hK'⟩ := g.allStored h (hst hagg) t hpos (lt_size_of_sets hr')
        exact hK.unique (hd.stored hK').2.1 ▸ hK'
      · exact hK'

theorem faithful (hf : c.Faithful) (hk : c.KeepsCalls c') : c'.Faithful := by
  intro e x p m k hx hm hp hkx
  have hs' := g.sound h
  have he : c'.graph.Edge p e := hs'.graph.edge_iff.2 ⟨m, hm.1, hp⟩
  by_cases hlt : e < c.graph.size
  · have hx₀ := g.reducedOf_of_lt h hlt hx
    have he₀ := g.edge_of_lt h he hlt
    obtain ⟨m₀, hm₀, hp₀⟩ := h.graph.edge_iff.1 he₀
    obtain ⟨-, me, -, hme, -⟩ := h.live_of_edge he₀
    cases Option.some.inj (hm₀.symm.trans hme.1)
    obtain ⟨k₀, hk₀, -⟩ := (h.exit hx₀).exit
    obtain ⟨k', hk', -, hset, -⟩ := (g.toExtends h).evolves.node hk₀
    cases Option.some.inj (hkx.symm.trans hk')
    rw [hk e x p hx₀ he₀ he, hset]
    exact hf e x p m₀ k₀ hx₀ hme hp₀ hk₀
  · obtain ⟨t, ht, q, f, b, mx, hq, -, -, hxq, -, hmx, -⟩ :=
      g.exit_of_new h (Nat.not_lt.1 hlt) hx he
    obtain ⟨mx', hmx', hset⟩ := hs'.live_of_mem hq hxq
    cases Option.some.inj (hkx.symm.trans hmx'.1)
    rw [ht, hset]

theorem tidy (ht : c.Tidy) : c'.Tidy := by
  induction g with
  | refl => exact ht
  | quiet _ _ _ ih => exact ih
  | pop g hr ih => exact ih.extend (sound_pop (g.sound h) hr).2 fun _ => rfl
  | resolve g _ _ _ st ih =>
    refine ih.extend (st.spec (g.sound h)).2 fun k => ?_
    rw [st.links, Links.reducedOf_linkEntry]
  | @unfold d d' n g _ _ st ih =>
    have hd := g.sound h
    have e := (st.spec hd).2
    cases st with
    | successor => exact ih.extend e fun _ => rfl
    | record => exact ih.extend e fun _ => rfl
    | @expand p m r t x b hp hr ht hs hx hb hm =>
      have hf : d.Fertile n p r none := ⟨hp, hr, by simp⟩
      intro k y hy
      change (d.links.linkExpanded _ _).reducedOf k = some y at hy
      rw [Links.reducedOf_linkExpanded] at hy
      split at hy
      · rename_i hk
        cases hy
        obtain ⟨mx, hmx, -⟩ := e.node hm
        exact ⟨⟨_, hk ▸ (live_sprout_iff hf).2 (Or.inl ⟨rfl, rfl⟩)⟩, mx, hmx⟩
      · obtain ⟨⟨mk, hmk⟩, my, hmy⟩ := ih k y hy
        obtain ⟨mk', hmk', -⟩ := e.node hmk
        obtain ⟨my', hmy', -⟩ := e.node hmy
        exact ⟨⟨mk', hmk'⟩, my', hmy'⟩

end Grows

structure Context.Unrepaired (c : Context) : Prop extends Agreed c where
  allStored : c.AllStored
  childless : ∀ n k, c.Waits n → ¬ c.graph.Edge n k

namespace Context.Unrepaired

theorem start (partitioning : Partitioning) (reducer : Reducer) (state : State)
    (precision : Tracked) (options : Options) :
    (Context.start partitioning reducer state precision options).Unrepaired where
  toSound := sound_start partitioning reducer state precision options
  faithful := by
    intro e x p m k hx
    cases hx
  returned := by
    intro K xs hxs
    cases hxs
  tidy := by
    intro e x hx
    cases hx
  allStored := by
    intro s hpos hs
    exact absurd hpos (Nat.not_lt.2 (Nat.le_of_lt_succ hs))
  childless := by
    intro n k _ he
    have hs := sound_start partitioning reducer state precision options
    obtain ⟨-, m, -, hm, -, hlt, -⟩ := hs.live_of_edge he
    exact absurd hm.lt_size (Nat.not_lt.2 (Nat.succ_le_of_lt (Nat.zero_lt_of_lt hlt)))

theorem grows (h : c.Unrepaired) (g : Grows program c c') : c'.Unrepaired where
  toSound := g.sound h.toSound
  faithful := by
    refine g.faithful h.toSound h.faithful fun e x p _ he _ => ?_
    obtain ⟨mp, -, hp, -⟩ := h.live_of_edge he
    refine g.entry_of_not_open fun ho => ?_
    rcases ho with hw | hlt
    · exact h.childless p e hw he
    · exact absurd hp.lt_size (Nat.not_lt.2 hlt)
  returned := g.returned h.toSound (fun _ => h.allStored) h.returned
  tidy := g.tidy h.toSound h.tidy
  allStored := g.allStored h.toSound h.allStored
  childless := by
    intro n k hw he
    have hk := g.edge_lt_of_waits h.toSound hw he
    have he₀ := g.edge_of_lt h.toSound he hk
    obtain ⟨mn, -, hn, -⟩ := h.live_of_edge he₀
    rcases g.open_of_waits h.toSound hw with hw | hlt
    · exact h.childless n k hw he₀
    · exact absurd hn.lt_size (Nat.not_lt.2 hlt)

end Context.Unrepaired

end Blockwise
