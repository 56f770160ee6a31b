import Blockwise.Repair
import Blockwise.Proofs.Context.Consistency
import Blockwise.Proofs.Context.Regular

/-!
What a repair does to a context. It removes nodes with all that depends on them, first those that
it was asked to remove and then those that were expanded from nodes that are gone. The recorded
exits of a reached set are forgotten before the set loses nodes, and its result follows a new
precision of its first node.
-/
namespace Blockwise

open Relation (ReflTransGen)

namespace Context

variable {c c' d : Context} {s t : SetId} {r : ReachedSet} {root node n : NodeId} {gone : IdSet}
  {adjustment : Adjustment Tracked} {K : Key}

/-- What is stored for `s` stands under the key that the first node of `s` tells now, and all else
stays or goes. -/
structure Follows (c c' : Context) (s : SetId) : Prop where
  aggressive : c'.cache.aggressive = c.cache.aggressive
  stored : ∀ {K t}, c'.cache.lookup K = some t →
    (t ≠ s ∧ c.cache.lookup K = some t ∨ t = s ∧ 0 < s ∧ c'.HasKey s K) ∧
      c'.cache.containsPrecise K
  similar : ∀ {K t}, c'.cache.imprecise.get? K = some t → c.cache.imprecise.get? K = some t
  entry : ∀ {K n}, c'.cache.blockEntry K = some n → c.cache.blockEntry K = some n ∨ c.Heads n
  recorded : ∀ {K xs}, c'.cache.returnEntry K = some xs → c.cache.returnEntry K = some xs ∧
    (c'.cache.lookup K = c.cache.lookup K ∨ c.cache.lookup K = none)

theorem Follows.of_cache (h : c.Stored) (hca : c'.cache = c.cache)
    (hkey : ∀ {K}, c.cache.lookup K = some s → c'.HasKey s K) : c.Follows c' s where
  aggressive := by rw [hca]
  stored := by
    intro K t ht
    rw [hca] at ht ⊢
    obtain ⟨hpos, -, hp⟩ := h ht
    refine ⟨?_, hp⟩
    by_cases hts : t = s
    · subst hts
      exact Or.inr ⟨rfl, hpos, hkey ht⟩
    · exact Or.inl ⟨hts, ht⟩
  similar := by
    intro K t ht
    rwa [hca] at ht
  entry := by
    intro K n hn
    rw [hca] at hn
    exact Or.inl hn
  recorded := by
    intro K xs hxs
    rw [hca] at hxs ⊢
    exact ⟨hxs, Or.inl rfl⟩

theorem Cuttable.root_eq (hc : c.Cuttable s r root gone) (hnode : ¬ c.Heads node)
    (hroot : Region.removalRoot r node = some root) : root = node := by
  rw [Region.removalRoot, if_neg fun he => hnode ⟨s, r, hc.set, he.symm⟩] at hroot
  exact (Option.some.inj hroot).symm

theorem Cuttable.set_of_frontier (hc : c.Cuttable s r root gone) (h : c.Structured) {a : NodeId}
    {m : Node State Tracked} (ha : a ∈ Region.frontier c.graph gone) (hm : c.graph.Live a m) :
    m.set = s := by
  obtain ⟨-, b, hb, hp⟩ := Region.mem_frontier.1 ha
  obtain ⟨ma, mb, hma, hmb, -, -, hset⟩ := h.live_of_edge (h.graph.edge_iff.2 hp)
  obtain ⟨mb', hmb', hbs⟩ := hc.live h hb
  rw [hm.unique hma] at *
  rw [hset, ← hmb.unique hmb', hbs]

theorem Cuttable.priceAfter_eq (hc : c.Cuttable s r root gone) (h : c.Structured) {a : NodeId}
    {m : Node State Tracked} (hm : c.graph.Live a m) (hset : m.set ≠ s) (p : Tracked) :
    c.priceAfter adjustment gone a p = p := by
  refine if_neg fun ha => ?_
  exact hset (hc.set_of_frontier h ha hm)

theorem priceAfter_keep (a : NodeId) (p : Tracked) : c.priceAfter .keep gone a p = p := by
  unfold priceAfter Region.reprice
  split <;> rfl

theorem Cuttable.hasKey_cut (hc : c.Cuttable s r root gone) (h : c.Structured) {q : ReachedSet}
    {f : Node State Tracked} (hq : c.sets[t]? = some q) (hf : c.graph.Live q.first f) :
    (c.cut s r adjustment gone).HasKey t
      ⟨f.state, c.priceAfter adjustment gone q.first f.precision, f.state.location⟩ := by
  have e : c.Evolves (c.cut s r adjustment gone) := evolves_cut hc h
  obtain ⟨q', hq', hfirst⟩ := e.set hq
  have hkept := hc.heads_not_gone h ⟨t, q, hq, rfl⟩
  refine ⟨q', _, hq', hfirst ▸ live_cut_iff.2 ⟨f, hf, hkept, rfl⟩, ?_⟩
  rw [Graph.state_cutOut, Graph.precision_cutOut, hfirst]

theorem Cuttable.hasKey_of_ne (hc : c.Cuttable s r root gone) (h : c.Structured) (hts : t ≠ s)
    (hK : c.HasKey t K) : (c.cut s r adjustment gone).HasKey t K := by
  obtain ⟨q, f, hq, hf, rfl⟩ := hK
  obtain ⟨f', hf', hset⟩ := h.live_first hq
  rw [hf.unique hf'] at hset
  have hkey : (c.cut s r adjustment gone).HasKey t _ := hc.hasKey_cut h hq hf
  rwa [hc.priceAfter_eq h hf fun h => hts (hset.symm.trans h)] at hkey

theorem Cuttable.member_of_ne (hc : c.Cuttable s r root gone) (h : c.Structured) (hts : t ≠ s)
    (hn : ∃ m, c.graph.Live n m ∧ m.set = t) :
    ∃ m, (c.cut s r adjustment gone).graph.Live n m ∧ m.set = t := by
  obtain ⟨m, hm, hset⟩ := hn
  have hkept : n ∉ gone := by
    intro hgone
    obtain ⟨m', hm', hset'⟩ := hc.live h hgone
    rw [hm.unique hm'] at hset'
    exact hts (hset.symm.trans hset')
  exact ⟨_, live_cut_iff.2 ⟨m, hm, hkept, rfl⟩, Graph.set_cutOut.trans hset⟩

theorem Cuttable.hasKey_keep (hc : c.Cuttable s r root gone) (h : c.Structured)
    (hK : c.HasKey t K) : (c.cut s r .keep gone).HasKey t K := by
  obtain ⟨q, f, hq, hf, rfl⟩ := hK
  have hkey : (c.cut s r .keep gone).HasKey t _ := hc.hasKey_cut h hq hf
  rwa [priceAfter_keep] at hkey

/-- The removal of `node` from the reached set `s`. The last node goes in place of the first, or
none. -/
inductive Sheds (s : SetId) (node : NodeId) (c : Context) : Context → Prop
  | none (hhead : c.Heads node) : Sheds s node c c
  | cut {r root gone adjustment cache} (hc : c.Cuttable s r root gone)
      (hroot : Region.removalRoot r node = some root)
      (hcache : c.Follows { c.cut s r adjustment gone with cache } s)
      (hforgot : ∀ {K}, 0 < s → c.HasKey s K → c.cache.returnEntry K = Option.none) :
      Sheds s node c { c.cut s r adjustment gone with cache }

namespace Sheds

variable (h : c.Sound) (st : c.Sheds s node c')

include st

theorem links : c'.links = c.links := by
  cases st <;> rfl

include h

theorem evolves : c.Evolves c' := by
  cases st with
  | none => exact .refl c
  | @cut r root gone adjustment cache hc =>
    have e : c.Evolves (c.cut s r adjustment gone) := evolves_cut hc h.toStructured
    exact { e with }

theorem sound : c'.Sound := by
  have e := st.evolves h
  cases st with
  | none => exact h
  | @cut r root gone adjustment cache hc hroot hcache hforgot =>
    have hs : (c.cut s r adjustment gone).Structured := .cut hc h.toStructured
    refine h.follow e { hs with } rfl ?_ hcache.similar ?_
    · intro K t ht
      obtain ⟨⟨hts, ht⟩ | ⟨rfl, hpos, hkey⟩, hp⟩ := hcache.stored ht
      · obtain ⟨hpos, hkey, -⟩ := h.stored ht
        exact ⟨hpos, hc.hasKey_of_ne h.toStructured hts hkey, hp⟩
      · exact ⟨hpos, hkey, hp⟩
    · intro K n hn
      rcases hcache.entry hn with hn | hn
      · exact h.entry hn
      · exact hn

theorem supports_iff {a b : NodeId} : c'.graph.Supports a b ↔
    c.graph.Supports a b ∧ ∃ m, c'.graph.Live b m := by
  constructor
  · intro hab
    have hlive : ∃ m, c'.graph.Live b m := by
      have hs' := (st.sound h).toStructured
      rcases hab with hab | hab
      · obtain ⟨-, m, -, hm, -⟩ := hs'.live_of_edge hab
        exact ⟨m, hm⟩
      · obtain ⟨-, m, -, hm, -⟩ := hs'.live_of_covers hab
        exact ⟨m, hm⟩
    refine ⟨?_, hlive⟩
    cases st with
    | none => exact hab
    | cut =>
      rcases hab with hab | hab
      · exact Or.inl ((Graph.edge_of_cutOut (node?_cut (s := s))).1 hab).1
      · exact Or.inr ((Graph.covers_of_cutOut (node?_cut (s := s))).1 hab).1
  · rintro ⟨hab, m, hm⟩
    cases st with
    | none => exact hab
    | @cut r root gone adjustment cache hc =>
      obtain ⟨-, -, hb, -⟩ := (live_cut_iff (s := s)).1 hm
      have ha : a ∉ gone := fun ha => hb (hc.closed ha hab)
      rcases hab with hab | hab
      · exact Or.inl ((Graph.edge_of_cutOut (node?_cut (s := s))).2
          ⟨hab, by simpa using ha, by simpa using hb⟩)
      · exact Or.inr ((Graph.covers_of_cutOut (node?_cut (s := s))).2
          ⟨hab, by simpa using ha, by simpa using hb⟩)

omit h in
theorem set_of_lost (h : c.Structured) {m : Node State Tracked} (hm : c.graph.Live n m)
    (hlost : ∀ m', ¬ c'.graph.Live n m') : m.set = s := by
  cases st with
  | none => exact absurd hm (hlost m)
  | @cut r root gone adjustment cache hc =>
    by_cases hn : n ∈ gone
    · obtain ⟨m', hm', hset⟩ := hc.live h hn
      rwa [hm.unique hm'] at hset
    · exact absurd ((live_cut_iff (s := s)).2 ⟨m, hm, hn, rfl⟩) (hlost _)

variable (hnode : ¬ c.Heads node)

include hnode

omit h in
theorem dependent_of_lost {m : Node State Tracked} (hm : c.graph.Live n m)
    (hlost : ∀ m', ¬ c'.graph.Live n m') : ReflTransGen c.graph.Supports node n := by
  cases st with
  | none => exact absurd hm (hlost m)
  | @cut r root gone adjustment cache hc hroot =>
    have he := hc.root_eq hnode hroot
    by_cases hn : n ∈ gone
    · exact he ▸ (hc.gone.mem n).1 hn
    · exact absurd ((live_cut_iff (s := s)).2 ⟨m, hm, hn, rfl⟩) (hlost _)

omit h in
theorem not_live (m : Node State Tracked) : ¬ c'.graph.Live node m := by
  cases st with
  | none hhead => exact absurd hhead hnode
  | @cut r root gone adjustment cache hc hroot =>
    have he := hc.root_eq hnode hroot
    intro hm
    obtain ⟨-, -, hn, -⟩ := (live_cut_iff (s := s)).1 hm
    exact hn ((hc.gone.mem node).2 (he ▸ .refl))

end Sheds

theorem Sheds.returned (h : c.Sound) (st : c.Sheds s node c') (hret : c.Returned) :
    c'.Returned := by
  cases st with
  | none => exact hret
  | @cut r root gone adjustment cache hc hroot hcache hforgot =>
    intro K xs hxs
    obtain ⟨hold, hsame⟩ := hcache.recorded hxs
    obtain ⟨t, ht, hmem⟩ := hret K xs hold
    have hlookup : cache.lookup K = some t := by
      rcases hsame with he | hno
      · exact he.trans ht
      · rw [hno] at ht
        cases ht
    have hts : t ≠ s := by
      rintro rfl
      obtain ⟨hpos, hkey, -⟩ := h.stored ht
      rw [hforgot hpos hkey] at hold
      cases hold
    exact ⟨t, hlookup, fun x hx => hc.member_of_ne h.toStructured hts (hmem x hx)⟩

end Context

open Context

/-- What a repair makes of `c` when it removes the nodes in `roots`. -/
inductive Shrinks (c : Context) : List NodeId → Context → Prop
  | start : Shrinks c [] c
  | quiet {roots d} (g : Shrinks c roots d) (statistics : Statistics) (shutdown : Shutdown) :
      Shrinks c roots { d with statistics, shutdown }
  | forgetReturns {roots d} (g : Shrinks c roots d) (K : Key) :
      Shrinks c roots { d with cache := d.cache.removeReturnEntry K }
  | forgetEntry {roots d} (g : Shrinks c roots d) (K : Key) :
      Shrinks c roots { d with cache := d.cache.removeBlockEntry K }
  | fresh {roots d K} (g : Shrinks c roots d) (hK : K.block = K.state.location)
      (hp : d.cache.containsPrecise K = false) : Shrinks c roots (d.cacheSet K)
  | remove {roots d s node d'} (g : Shrinks c roots d) (rm : d.Sheds s node d') :
      Shrinks c (roots ++ [node]) d'
  | stale {roots d s e x d'} (g : Shrinks c roots d) (hx : d.links.reducedOf e = some x)
      (hdead : ∀ m, ¬ d.graph.Live x m) (rm : d.Sheds s e d') : Shrinks c roots d'

namespace Shrinks

variable {c c' c'' : Context} {roots : List NodeId} {a b n : NodeId}

theorem sound_removeReturnEntry (h : c.Sound) (K : Key) :
    Sound { c with cache := c.cache.removeReturnEntry K } :=
  { h with }

theorem sound_removeBlockEntry (h : c.Sound) (K : Key) :
    Sound { c with cache := c.cache.removeBlockEntry K } := by
  refine { h with entry := ?_ }
  intro K' n hn
  change (c.cache.blockEntries.erase K).get? K' = some n at hn
  rw [Table.get?_erase] at hn
  split at hn
  · cases hn
  · exact h.entry hn

theorem evolves_cache (cache : Cache State Tracked) : c.Evolves { c with cache } :=
  { Evolves.refl c with }

theorem spec (h : c.Sound) (g : Shrinks c roots c') :
    c'.Sound ∧ c.Evolves c' ∧ c'.links = c.links := by
  induction g with
  | start => exact ⟨h, .refl c, rfl⟩
  | quiet g _ _ ih =>
    obtain ⟨hs, he, hl⟩ := ih
    exact ⟨{ hs with }, he.trans { Evolves.refl _ with }, hl⟩
  | forgetReturns g K ih =>
    obtain ⟨hs, he, hl⟩ := ih
    exact ⟨sound_removeReturnEntry hs K, he.trans (evolves_cache _), hl⟩
  | forgetEntry g K ih =>
    obtain ⟨hs, he, hl⟩ := ih
    exact ⟨sound_removeBlockEntry hs K, he.trans (evolves_cache _), hl⟩
  | fresh g hK hp ih =>
    obtain ⟨hs, he, hl⟩ := ih
    exact ⟨hs.cacheSet hK, he.trans evolves_cacheSet, hl⟩
  | remove g rm ih =>
    obtain ⟨hs, he, hl⟩ := ih
    exact ⟨rm.sound hs, he.trans (rm.evolves hs), rm.links.trans hl⟩
  | stale g _ _ rm ih =>
    obtain ⟨hs, he, hl⟩ := ih
    exact ⟨rm.sound hs, he.trans (rm.evolves hs), rm.links.trans hl⟩

theorem trans {roots' : List NodeId} (g : Shrinks c roots c') (g' : Shrinks c' roots' c'') :
    Shrinks c (roots ++ roots') c'' := by
  induction g' with
  | start => simpa using g
  | quiet _ statistics shutdown ih => exact ih.quiet statistics shutdown
  | forgetReturns _ K ih => exact ih.forgetReturns K
  | forgetEntry _ K ih => exact ih.forgetEntry K
  | fresh _ hK hp ih => exact ih.fresh hK hp
  | remove _ rm ih =>
    rw [← List.append_assoc]
    exact ih.remove rm
  | stale _ hx hdead rm ih => exact ih.stale hx hdead rm

variable (h : c.Sound) (g : Shrinks c roots c')

include h g

theorem sound : c'.Sound := (g.spec h).1

theorem evolves : c.Evolves c' := (g.spec h).2.1

theorem links : c'.links = c.links := (g.spec h).2.2

theorem returned (hret : c.Returned) : c'.Returned := by
  induction g with
  | start => exact hret
  | quiet _ _ _ ih => exact ih
  | forgetReturns _ K ih =>
    intro K' xs hxs
    change (Table.erase K _).get? K' = some xs at hxs
    rw [Table.get?_erase] at hxs
    split at hxs
    · cases hxs
    · exact ih K' xs hxs
  | forgetEntry _ _ ih => exact ih
  | @fresh roots d K g hK hp ih =>
    intro K' xs hxs
    obtain ⟨t, ht, hmem⟩ := ih K' xs hxs
    have hne : K ≠ K' := by
      rintro rfl
      obtain ⟨-, -, hp'⟩ := (g.sound h).stored ht
      rw [hp] at hp'
      cases hp'
    refine ⟨t, ?_, fun x hx => ?_⟩
    · rw [lookup_cacheSet, if_neg hne, ht]
    · obtain ⟨m, hm, hset⟩ := hmem x hx
      exact ⟨m, live_addReachedSet_iff.2 (Or.inr hm), hset⟩
  | remove g rm ih => exact rm.returned (g.sound h) ih
  | stale g _ _ rm ih => exact rm.returned (g.sound h) ih

end Shrinks

end Blockwise
