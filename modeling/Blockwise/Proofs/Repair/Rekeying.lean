import Blockwise.Repair
import Blockwise.Proofs.Context.Regular

/-!
How a repair changes the cached results. It removes subtrees, and when the first node of a reached
set gets another precision by that, the result of the set moves to its new key, or leaves the cache
where another set holds that key already. With an aggressive cache it adds fresh results for refined
precisions first. The new precision depends on the increments and on the block only, so a set moves
at most once, and never away from a refined precision.
-/
namespace Blockwise

open Relation (ReflTransGen)
open Context

variable {c c' : Context} {s : SetId} {K : Key} {increments : List (Increment Tracked)}
  {p : Tracked} {l : Location}

/-! ### The cache follows a first node -/

/-- What becomes of a cache when the first node of `s`, stored under `K`, has the precision `p`. -/
inductive Cache.Rekeyed (cache : Cache State Tracked) (s : SetId) (K : Key) (first : NodeId)
    (p : Tracked) (listed : List Key) : List Key → Cache State Tracked → Prop
  | kept (hK : cache.lookup K ≠ some s) : Rekeyed cache s K first p listed listed cache
  | dropped {t : SetId} (hK : cache.lookup K = some s)
      (ht : cache.lookup { K with precision := p } = some t) (hts : t ≠ s) :
      Rekeyed cache s K first p listed listed (cache.removeEntry K)
  | moved (hK : cache.lookup K = some s)
      (hfree : ∀ t, cache.lookup { K with precision := p } = some t → t = s) :
      Rekeyed cache s K first p listed (listed ++ [{ K with precision := p }])
        ((cache.updatePrecision K s p).2.setBlockEntry { K with precision := p } first)

structure Cache.Moved (cache : Cache State Tracked) (s : SetId) (K new : Key) (first : NodeId)
    (cache' : Cache State Tracked) : Prop where
  aggressive : cache'.aggressive = cache.aggressive
  lookup : ∀ K', cache'.lookup K' =
    if new = K' then some s else if K' = K then none else cache.lookup K'
  precise : ∀ K', cache'.containsPrecise K' =
    (decide (new = K') || decide (K' ≠ K) && cache.containsPrecise K')
  similar : ∀ {K' t}, cache'.imprecise.get? K' = some t → cache.imprecise.get? K' = some t
  entry : ∀ {K' n}, cache'.blockEntry K' = some n → cache.blockEntry K' = some n ∨ n = first
  recorded : ∀ K', cache'.returnEntry K' = if K' = K then none else cache.returnEntry K'

theorem Cache.updatePrecision_moved {cache : Cache State Tracked} {p : Tracked} (first : NodeId)
    (hK : cache.lookup K = some s) (hp : cache.containsPrecise K) :
    cache.Moved s K { K with precision := p } first
      ((cache.updatePrecision K s p).2.setBlockEntry { K with precision := p } first) := by
  have erased : ∀ {K' t} (new : Key), (((cache.imprecise.erase K).erase new).erase new).get? K' =
      some t → cache.imprecise.get? K' = some t := fun _ ht =>
    Table.get?_of_erase (Table.get?_of_erase (Table.get?_of_erase ht))
  generalize hnew : ({ K with precision := p } : Key) = new
  have hentry : ∀ (entries : Table Key NodeId), (∀ K', new ≠ K' →
      entries.get? K' = (cache.blockEntries.erase K).get? K') → ∀ {K' n},
      (entries.insert new first).get? K' = some n → cache.blockEntry K' = some n ∨ n = first := by
    intro entries hentries K' n hn
    rw [Table.get?_insert] at hn
    split at hn
    · exact Or.inr (Option.some.inj hn).symm
    · rename_i hne
      rw [hentries K' hne, Table.get?_erase] at hn
      split at hn
      · cases hn
      · exact Or.inl hn
  simp only [Cache.updatePrecision, if_pos hK, if_pos hp, hnew]
  cases cache.blockEntry K with
  | none =>
    exact ⟨rfl, fun _ => by simp, fun _ => by simp, fun ht => erased new ht,
      fun hn => hentry _ (fun _ _ => rfl) hn, fun _ => Table.get?_erase ..⟩
  | some old =>
    exact ⟨rfl, fun _ => by simp, fun _ => by simp, fun ht => erased new ht,
      fun hn => hentry _ (fun _ hne => (Table.get?_insert ..).trans (if_neg hne)) hn,
      fun _ => Table.get?_erase ..⟩

theorem Cache.Rekeyed.cases {cache cache' : Cache State Tracked} {first : NodeId}
    {listed listed' : List Key} (st : cache.Rekeyed s K first p listed listed' cache')
    (hp : cache.lookup K = some s → cache.containsPrecise K) :
    cache.lookup K ≠ some s ∧ listed' = listed ∧ cache' = cache ∨
      cache.lookup K = some s ∧
        ((∃ t, cache.lookup { K with precision := p } = some t ∧ t ≠ s) ∧ listed' = listed ∧
            cache' = cache.removeEntry K ∨
          (∀ t, cache.lookup { K with precision := p } = some t → t = s) ∧
            listed' = listed ++ [{ K with precision := p }] ∧
            cache.Moved s K { K with precision := p } first cache') := by
  cases st with
  | kept hK => exact Or.inl ⟨hK, rfl, rfl⟩
  | dropped hK ht hts => exact Or.inr ⟨hK, Or.inl ⟨⟨_, ht, hts⟩, rfl, rfl⟩⟩
  | moved hK hfree =>
    exact Or.inr ⟨hK, Or.inr ⟨hfree, rfl, updatePrecision_moved first hK (hp hK)⟩⟩

/-! ### The steps -/

theorem Increment.applyAll_eq (h : increments ≠ []) (p q : Tracked) :
    applyAll p increments = applyAll q increments := by
  cases increments with
  | nil => exact absurd rfl h
  | cons _ _ => rfl

namespace Context

/-- `p` is a precision that the increments give to the first node of the block at `l`. -/
def Refines (c : Context) (increments : List (Increment Tracked)) (l : Location) (p : Tracked) :
    Prop :=
  ∃ b old, c.partitioning.block? l = some b ∧
    p = c.reducer.reducePrecision (Increment.applyAll old increments) b

theorem Refines.unique {q : Tracked} (h : increments ≠ []) (hp : c.Refines increments l p)
    (hq : c.Refines increments l q) : p = q := by
  obtain ⟨b, old, hb, rfl⟩ := hp
  obtain ⟨b', old', hb', rfl⟩ := hq
  cases Option.some.inj (hb.symm.trans hb')
  rw [Increment.applyAll_eq h old old']

structure SameEntries (c c' : Context) : Prop where
  partitioning : c'.partitioning = c.partitioning
  reducer : c'.reducer = c.reducer
  lookup : ∀ K, c'.cache.lookup K = c.cache.lookup K
  precise : ∀ K, c'.cache.containsPrecise K = c.cache.containsPrecise K
  key : ∀ {s K}, 0 < s → c.HasKey s K → c'.HasKey s K

theorem SameEntries.refl (c : Context) : c.SameEntries c :=
  ⟨rfl, rfl, fun _ => rfl, fun _ => rfl, fun _ => id⟩

/-- In `c'` the first node of `s`, which told the key `K`, has the precision `p`; the other sets of
blocks keep their keys. -/
structure Reprices (c c' : Context) (s : SetId) (K : Key) (p : Tracked) : Prop where
  partitioning : c'.partitioning = c.partitioning
  reducer : c'.reducer = c.reducer
  pos : 0 < s
  old : c.HasKey s K
  new : c'.HasKey s { K with precision := p }
  changed : p ≠ K.precision
  other : ∀ {t K}, 0 < t → t ≠ s → c.HasKey t K → c'.HasKey t K

end Context

/-- What one step of a repair does to the cached results, and what the report says of it. -/
inductive ResultStep (increments : List (Increment Tracked)) :
    Report × Context → Report × Context → Prop
  | still {report report' : Report} {c c' : Context} (same : c.SameEntries c')
      (rekeyed : report'.rekeyed = report.rekeyed)
      (exactEntries : report'.exactEntries = report.exactEntries) :
      ResultStep increments (report, c) (report', c')
  | fresh {report report' : Report} {c : Context} {K : Key} (hblock : K.block = K.state.location)
      (hp : c.Refines increments K.block K.precision) (hno : c.cache.lookup K = none)
      (rekeyed : report'.rekeyed = report.rekeyed)
      (exactEntries : report'.exactEntries = report.exactEntries ++ [K]) :
      ResultStep increments (report, c) (report', c.cacheSet K)
  | rekey {report report' : Report} {c c' : Context} {s : SetId} {K : Key} {p : Tracked}
      {first : NodeId} (hst : c.Stored) (hne : increments ≠ [])
      (hp : c.Refines increments K.block p) (moved : c.Reprices c' s K p)
      (st : c.cache.Rekeyed s K first p report.rekeyed report'.rekeyed c'.cache)
      (exactEntries : report'.exactEntries = report.exactEntries) :
      ResultStep increments (report, c) (report', c')

abbrev ResultSteps (increments : List (Increment Tracked)) :=
  ReflTransGen (ResultStep increments)

namespace ResultStep

variable {x y : Report × Context} (st : ResultStep increments x y)

include st

theorem refines_iff : y.2.Refines increments l p ↔ x.2.Refines increments l p := by
  unfold Refines
  cases st with
  | still same => rw [same.partitioning, same.reducer]
  | fresh => exact Iff.rfl
  | rekey _ _ _ moved => rw [moved.partitioning, moved.reducer]

theorem hasKey (hpos : 0 < s) (hK : x.2.HasKey s K) : y.2.HasKey s K ∨
    ∃ p, increments ≠ [] ∧ x.2.Refines increments K.block p ∧ p ≠ K.precision ∧
      y.2.HasKey s { K with precision := p } := by
  cases st with
  | still same => exact Or.inl (same.key hpos hK)
  | fresh => exact Or.inl hK.cacheSet
  | @rekey _ _ c c' s' K' p first hst hne hp moved =>
    by_cases hs : s = s'
    · subst hs
      cases moved.old.unique hK
      exact Or.inr ⟨p, hne, hp, moved.changed, moved.new⟩
    · exact Or.inl (moved.other hpos hs hK)

theorem result (hpos : 0 < s) (hK : x.2.HasKey s K) (hs : x.2.cache.lookup K = some s) :
    y.2.HasKey s K ∧ y.2.cache.lookup K = some s ∨
    ∃ p, increments ≠ [] ∧ x.2.Refines increments K.block p ∧ p ≠ K.precision ∧
      y.2.HasKey s { K with precision := p } ∧ y.2.cache.lookup K = none ∧
      (y.2.cache.lookup { K with precision := p } = some s ∧
          { K with precision := p } ∈ y.1.rekeyed ∨
        ∃ t, t ≠ s ∧ x.2.cache.lookup { K with precision := p } = some t ∧ x.2.Stored ∧
          y.2.cache.lookup { K with precision := p } = some t) := by
  cases st with
  | still same => exact Or.inl ⟨same.key hpos hK, (same.lookup K).trans hs⟩
  | @fresh _ _ c K' _ _ hno =>
    refine Or.inl ⟨hK.cacheSet, ?_⟩
    rw [lookup_cacheSet, if_neg ?_, hs]
    rintro rfl
    rw [hno] at hs
    cases hs
  | @rekey report report' c c' s' K' p first hst hne hp moved st =>
    have hchange : ∀ {K : Key}, p ≠ K.precision → { K with precision := p } ≠ K :=
      fun hp he => hp (congrArg CacheKey.precision he)
    by_cases hss : s = s'
    · subst hss
      cases moved.old.unique hK
      refine Or.inr ⟨p, hne, hp, moved.changed, moved.new, ?_⟩
      have hKp := hchange moved.changed
      rcases st.cases fun hK => (hst hK).2.2 with
        ⟨hno, -⟩ | ⟨-, ⟨⟨t, ht, hts⟩, -, hca⟩ | ⟨-, hlist, hmoved⟩⟩
      · exact absurd hs hno
      · simp only [hca, Cache.lookup_removeEntry, if_true, if_neg hKp]
        exact ⟨trivial, Or.inr ⟨t, hts, ht, hst, ht⟩⟩
      · simp only [hmoved.lookup, if_true, if_neg hKp, hlist]
        exact ⟨trivial, Or.inl ⟨trivial, by simp⟩⟩
    · refine Or.inl ⟨moved.other hpos hss hK, ?_⟩
      -- The step leaves the keys of other results alone.
      have hother : ∀ {L}, c.cache.lookup L = some s' → K ≠ L := by
        rintro _ hL rfl
        exact hss (Option.some.inj (hs.symm.trans hL))
      rcases st.cases fun hK => (hst hK).2.2 with
        ⟨-, -, hca⟩ | ⟨hK', ⟨-, -, hca⟩ | ⟨hfree, -, hmoved⟩⟩
      · rw [hca, hs]
      · rw [hca, Cache.lookup_removeEntry, if_neg (hother hK'), hs]
      · rw [hmoved.lookup, if_neg ?_, if_neg (hother hK'), hs]
        rintro rfl
        exact hss (hfree s hs)

theorem result_of_refines (hpos : 0 < s) (hK : x.2.HasKey s K) (hs : x.2.cache.lookup K = some s)
    (hp : x.2.Refines increments K.block K.precision) :
    y.2.HasKey s K ∧ y.2.cache.lookup K = some s := by
  rcases st.result hpos hK hs with hkept | ⟨p, hne, hq, hchanged, -⟩
  · exact hkept
  · exact absurd (hq.unique hne hp) hchanged

theorem hasKey_of_refines (hpos : 0 < s) (hK : x.2.HasKey s K)
    (hp : x.2.Refines increments K.block K.precision) : y.2.HasKey s K := by
  rcases st.hasKey hpos hK with hkept | ⟨p, hne, hq, hchanged, -⟩
  · exact hkept
  · exact absurd (hq.unique hne hp) hchanged

theorem lookup_eq_none (hno : x.2.cache.lookup K = none)
    (hp : ¬ x.2.Refines increments K.block K.precision) : y.2.cache.lookup K = none := by
  cases st with
  | still same => exact (same.lookup K).trans hno
  | @fresh _ _ c K' _ hp' =>
    rw [lookup_cacheSet, if_neg ?_, hno]
    rintro rfl
    exact hp hp'
  | @rekey report report' c c' s K' p first hst hne hp' moved st =>
    rcases st.cases fun hK => (hst hK).2.2 with
      ⟨-, -, hca⟩ | ⟨-, ⟨-, -, hca⟩ | ⟨-, -, hmoved⟩⟩
    · rw [hca, hno]
    · rw [hca, Cache.lookup_removeEntry, hno, ite_self]
    · rw [hmoved.lookup, if_neg ?_, hno, ite_self]
      rintro rfl
      exact hp hp'

theorem mem_rekeyed (hK : K ∈ x.1.rekeyed) : K ∈ y.1.rekeyed := by
  cases st with
  | still _ hlist => exact hlist ▸ hK
  | fresh _ _ _ hlist => exact hlist ▸ hK
  | rekey hst _ _ _ st =>
    rcases st.cases fun hK => (hst hK).2.2 with ⟨-, hl, -⟩ | ⟨-, ⟨-, hl, -⟩ | ⟨-, hl, -⟩⟩
    · exact hl ▸ hK
    · exact hl ▸ hK
    · exact hl ▸ List.mem_append_left _ hK

theorem mem_exactEntries (hK : K ∈ x.1.exactEntries) : K ∈ y.1.exactEntries := by
  cases st with
  | still _ _ hlist => exact hlist ▸ hK
  | fresh _ _ _ _ hlist => exact hlist ▸ List.mem_append_left _ hK
  | rekey _ _ _ _ _ hlist => exact hlist ▸ hK

theorem source (hs : y.2.cache.lookup K = some s) : x.2.cache.lookup K = some s ∨
    x.2.Refines increments K.block K.precision ∧
      (K ∈ y.1.exactEntries ∨ K ∈ y.1.rekeyed ∧ increments ≠ [] ∧
        ∃ p, p ≠ K.precision ∧ x.2.cache.lookup { K with precision := p } = some s) := by
  cases st with
  | still same => exact Or.inl ((same.lookup K).symm.trans hs)
  | @fresh _ _ c K' _ hp _ _ hlist =>
    rw [lookup_cacheSet] at hs
    split at hs
    · rename_i hK
      subst hK
      exact Or.inr ⟨hp, Or.inl (hlist ▸ List.mem_append_right _ (List.mem_singleton.2 rfl))⟩
    · exact Or.inl hs
  | @rekey report report' c c' s' K' p first hst hne hp moved st =>
    rcases st.cases fun hK => (hst hK).2.2 with
      ⟨-, -, hca⟩ | ⟨hK', ⟨-, -, hca⟩ | ⟨-, hlist, hmoved⟩⟩
    · exact Or.inl (hca ▸ hs)
    · rw [hca, Cache.lookup_removeEntry] at hs
      split at hs
      · cases hs
      · exact Or.inl hs
    · rw [hmoved.lookup] at hs
      split at hs
      · rename_i hK
        subst hK
        cases hs
        refine Or.inr ⟨hp, Or.inr ⟨?_, hne, K'.precision, Ne.symm moved.changed, hK'⟩⟩
        exact hlist ▸ List.mem_append_right _ (List.mem_singleton.2 rfl)
      · split at hs
        · cases hs
        · exact Or.inl hs

theorem marked (h : x.2.Marked) : y.2.Marked := by
  intro K hK
  cases st with
  | still same =>
    obtain ⟨s, hs⟩ := h (same.precise K ▸ hK)
    exact ⟨s, (same.lookup K).trans hs⟩
  | fresh => exact h.cacheSet hK
  | @rekey report report' c c' s' K' p first hst hne hp moved st =>
    rcases st.cases fun hK => (hst hK).2.2 with
      ⟨-, -, hca⟩ | ⟨-, ⟨-, -, hca⟩ | ⟨-, -, hmoved⟩⟩
    · rw [hca] at hK ⊢
      exact h hK
    · rw [hca, Cache.containsPrecise_removeEntry, Bool.and_eq_true, decide_eq_true_eq] at hK
      rw [hca, Cache.lookup_removeEntry, if_neg hK.1]
      exact h hK.2
    · rw [hmoved.precise, Bool.or_eq_true, Bool.and_eq_true, decide_eq_true_eq,
        decide_eq_true_eq] at hK
      rw [hmoved.lookup]
      split
      · exact ⟨_, rfl⟩
      · rename_i hnew
        obtain ⟨hold, hK⟩ := hK.resolve_left hnew
        rw [if_neg hold]
        exact h hK

end ResultStep

/-! ### Whole repairs -/

namespace ResultSteps

variable {x y : Report × Context} (st : ResultSteps increments x y)

include st

theorem refines_iff : y.2.Refines increments l p ↔ x.2.Refines increments l p := by
  induction st with
  | refl => exact Iff.rfl
  | tail _ st ih => exact st.refines_iff.trans ih

theorem result_of_refines (hpos : 0 < s) (hK : x.2.HasKey s K) (hs : x.2.cache.lookup K = some s)
    (hp : x.2.Refines increments K.block K.precision) :
    y.2.HasKey s K ∧ y.2.cache.lookup K = some s := by
  induction st with
  | refl => exact ⟨hK, hs⟩
  | tail before st ih =>
    exact st.result_of_refines hpos ih.1 ih.2 ((ResultSteps.refines_iff before).2 hp)

theorem marked (h : x.2.Marked) : y.2.Marked := by
  induction st with
  | refl => exact h
  | tail _ st ih => exact st.marked ih

end ResultSteps

/-- What became since `x` of the result `s`, which was cached under `K`. -/
inductive Accounted (increments : List (Increment Tracked)) (x : Report × Context) (K : Key)
    (s : SetId) : Report × Context → Prop
  | kept {y : Report × Context} (hkey : y.2.HasKey s K) (hs : y.2.cache.lookup K = some s) :
      Accounted increments x K s y
  | moved {y : Report × Context} {p : Tracked} (hp : y.2.Refines increments K.block p)
      (hne : increments ≠ []) (hchanged : p ≠ K.precision)
      (hkey : y.2.HasKey s { K with precision := p }) (hold : y.2.cache.lookup K = none)
      (hs : y.2.cache.lookup { K with precision := p } = some s)
      (hlisted : { K with precision := p } ∈ y.1.rekeyed) : Accounted increments x K s y
  | displaced {y before : Report × Context} {p : Tracked} {t : SetId}
      (hp : y.2.Refines increments K.block p) (hne : increments ≠ []) (hchanged : p ≠ K.precision)
      (hkey : y.2.HasKey s { K with precision := p }) (hold : y.2.cache.lookup K = none)
      (hfirst : ResultSteps increments x before) (hs : before.2.cache.lookup K = some s)
      (htaken : before.2.cache.lookup { K with precision := p } = some t) (hts : t ≠ s)
      (hthen : ResultSteps increments before y) (htpos : 0 < t)
      (htkey : y.2.HasKey t { K with precision := p })
      (ht : y.2.cache.lookup { K with precision := p } = some t) : Accounted increments x K s y

namespace Accounted

variable {x y z : Report × Context}

theorem step (hpos : 0 < s) (steps : ResultSteps increments x y) (ha : Accounted increments x K s y)
    (st : ResultStep increments y z) : Accounted increments x K s z := by
  have unrefined : ∀ {p}, increments ≠ [] → p ≠ K.precision → y.2.Refines increments K.block p →
      ¬ y.2.Refines increments K.block K.precision :=
    fun hne hchanged hp hq => hchanged (hp.unique hne hq)
  cases ha with
  | kept hkey hs =>
    rcases st.result hpos hkey hs with ⟨hkey, hs⟩ | ⟨p, hne, hp, hchanged, hkey', hold, hs' | hs'⟩
    · exact .kept hkey hs
    · exact .moved (st.refines_iff.2 hp) hne hchanged hkey' hold hs'.1 hs'.2
    · obtain ⟨t, hts, htaken, hst, ht⟩ := hs'
      obtain ⟨htpos, htkey, -⟩ := hst htaken
      exact .displaced (st.refines_iff.2 hp) hne hchanged hkey' hold steps hs htaken hts
        (.single st) htpos (st.hasKey_of_refines htpos htkey hp) ht
  | moved hp hne hchanged hkey hold hs hlisted =>
    obtain ⟨hkey, hs⟩ := st.result_of_refines hpos hkey hs hp
    exact .moved (st.refines_iff.2 hp) hne hchanged hkey
      (st.lookup_eq_none hold (unrefined hne hchanged hp)) hs (st.mem_rekeyed hlisted)
  | displaced hp hne hchanged hkey hold hfirst hs htaken hts hthen htpos htkey ht =>
    obtain ⟨htkey, ht⟩ := st.result_of_refines htpos htkey ht hp
    exact .displaced (st.refines_iff.2 hp) hne hchanged (st.hasKey_of_refines hpos hkey hp)
      (st.lookup_eq_none hold (unrefined hne hchanged hp)) hfirst hs htaken hts (hthen.tail st)
      htpos htkey ht

theorem of_steps (steps : ResultSteps increments x y) (hst : x.2.Stored)
    (hs : x.2.cache.lookup K = some s) : Accounted increments x K s y := by
  obtain ⟨hpos, hkey, -⟩ := hst hs
  induction steps with
  | refl => exact .kept hkey hs
  | tail before st ih => exact ih.step hpos before st

end Accounted

theorem ResultSteps.source {x y : Report × Context} (steps : ResultSteps increments x y)
    (hs : y.2.cache.lookup K = some s) : x.2.cache.lookup K = some s ∨
      y.2.Refines increments K.block K.precision ∧
        (K ∈ y.1.exactEntries ∨ K ∈ y.1.rekeyed ∧
          ∃ p, p ≠ K.precision ∧ x.2.cache.lookup { K with precision := p } = some s) := by
  induction steps generalizing K with
  | refl => exact Or.inl hs
  | @tail y z before st ih =>
    -- What is still cached under its key was listed before, and stays listed.
    have still : ∀ {K}, y.2.cache.lookup K = some s → x.2.cache.lookup K = some s ∨
        z.2.Refines increments K.block K.precision ∧
          (K ∈ z.1.exactEntries ∨ K ∈ z.1.rekeyed ∧
            ∃ p, p ≠ K.precision ∧ x.2.cache.lookup { K with precision := p } = some s) := by
      intro K hs
      refine (ih hs).imp_right fun ⟨hp, hlist⟩ => ⟨st.refines_iff.2 hp, ?_⟩
      exact hlist.imp st.mem_exactEntries fun ⟨hK, hold⟩ => ⟨st.mem_rekeyed hK, hold⟩
    rcases st.source hs with hs | ⟨hp, hK | ⟨hK, hne, p, hchanged, hs⟩⟩
    · exact still hs
    · exact Or.inr ⟨st.refines_iff.2 hp, Or.inl hK⟩
    · refine Or.inr ⟨st.refines_iff.2 hp, Or.inr ⟨hK, p, hchanged, ?_⟩⟩
      -- A set that moves now did not move before.
      rcases ih hs with hs | ⟨hq, -⟩
      · exact hs
      · exact absurd (hq.unique hne hp) hchanged

end Blockwise
