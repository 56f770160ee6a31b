import Blockwise.Proofs.Exploration.Agreement
import Blockwise.Proofs.Repair.Shrinks

/-!
The exits recorded in the cache. They are recorded under the key that the first node of their
reached set tells, and a repair forgets them before that key changes. So each list of recorded exits
belongs to a set with its key, whether or not the set is still the result stored there: an
aggressive cache may answer a call with a set whose key another result has taken. The recorded
exits agree with the results until a call files the exits of one set under the key of another.
-/
namespace Blockwise

namespace Context

variable {c c' : Context} {s t : SetId} {K : Key} {xs : List NodeId} {node : NodeId}

def Owns (c : Context) (t : SetId) (K : Key) (xs : List NodeId) : Prop :=
  0 < t ∧ c.HasKey t K ∧ ∀ x ∈ xs, ∃ m, c.graph.Live x m ∧ m.set = t

def Owned (c : Context) : Prop :=
  ∀ K xs, c.cache.returnEntry K = some xs → ∃ t, c.Owns t K xs

/-- Exits of `t` are recorded under `K`, the key that its first node tells. -/
def Records (c : Context) (K : Key) (t : SetId) : Prop :=
  c.HasKey t K ∧ ∃ xs, c.cache.returnEntry K = some xs ∧
    ∃ x ∈ xs, ∃ m, c.graph.Live x m ∧ m.set = t

/-- The call that leads from `c` to `c'` records exits of `t` under a key where another result is
stored, or it stores another result where exits of `t` are recorded. -/
inductive Misfiles (c c' : Context) (t : SetId) : Prop
  | recorded {K : Key} {s : SetId} (exits : c'.Records K t) (stored : c'.cache.lookup K = some s)
      (other : t ≠ s) (new : c'.cache.returnEntry K ≠ c.cache.returnEntry K)
  | stored {K : Key} {s : SetId} (exits : c'.Records K t) (stored : c'.cache.lookup K = some s)
      (other : t ≠ s) (new : c.cache.lookup K ≠ some s)

/-! ### Recorded exits keep their set -/

theorem Returned.owned (h : c.Sound) (hr : c.Returned) : c.Owned := by
  intro K xs hxs
  obtain ⟨s, hs, hmem⟩ := hr K xs hxs
  obtain ⟨hpos, hkey, -⟩ := h.stored hs
  exact ⟨s, hpos, hkey, hmem⟩

theorem Owned.extend (h : c.Owned) (e : c.Extends c')
    (hsame : ∀ K, c'.cache.returnEntry K = c.cache.returnEntry K) : c'.Owned := by
  intro K xs hxs
  rw [hsame] at hxs
  obtain ⟨t, hpos, hkey, hmem⟩ := h K xs hxs
  refine ⟨t, hpos, e.hasKey hkey, fun x hx => ?_⟩
  obtain ⟨m, hm, hset⟩ := hmem x hx
  obtain ⟨m', hm', -, -, hset', -⟩ := e.node hm
  exact ⟨m', hm', hset'.trans hset⟩

theorem Owned.record (h : c.Owned) (hs : c.Structured) (hpos : 0 < t) (hK : c.HasKey t K)
    (hx : ∀ x ∈ xs, c.IsExit t x) :
    Owned { c with cache := c.cache.setReturnEntry K xs } := by
  intro K' ys hys
  change Cache.returnEntry (Cache.setReturnEntry ..) K' = some ys at hys
  rw [Cache.returnEntry_setReturnEntry] at hys
  split at hys
  · rename_i hKK
    cases hys
    refine ⟨t, hpos, hKK ▸ hK, fun x hmem => ?_⟩
    obtain ⟨q, f, b, m, hq, -, -, hxq, -⟩ := hx x hmem
    exact hs.live_of_mem hq hxq
  · exact h K' ys hys

theorem Owned.removeReturnEntry (h : c.Owned) (K : Key) :
    Owned { c with cache := c.cache.removeReturnEntry K } := by
  intro K' xs hxs
  exact h K' xs (Table.get?_of_erase hxs)

theorem Owned.sheds (h : c.Owned) (hs : c.Structured) (st : c.Sheds s node c') : c'.Owned := by
  cases st with
  | none => exact h
  | @cut r root gone adjustment cache hc hroot hcache hforgot =>
    intro K xs hxs
    obtain ⟨hold, -⟩ := hcache.recorded hxs
    obtain ⟨t, hpos, hkey, hmem⟩ := h K xs hold
    have hts : t ≠ s := by
      rintro rfl
      rw [hforgot hpos hkey] at hold
      cases hold
    exact ⟨t, hpos, hc.hasKey_of_ne hs hts hkey, fun x hx => hc.member_of_ne hs hts (hmem x hx)⟩

theorem Owned.finishRepair (h : c.Owned) : c.finishRepair.Owned := h

end Context

open Context

variable {program : Program} {c c' : Context} {roots : List NodeId}

theorem Grows.owned (h : c.Sound) (g : Grows program c c') (ho : c.Owned) : c'.Owned := by
  induction g with
  | refl => exact ho
  | quiet _ _ _ ih => exact ih
  | pop g hr ih => exact ih.extend (sound_pop (g.sound h) hr).2 fun _ => rfl
  | resolve g _ _ _ st ih => exact ih.extend (st.spec (g.sound h)).2 st.returnEntry
  | @unfold d d' n g _ _ st ih =>
    have hd := g.sound h
    have e := (st.spec hd).2
    cases st with
    | successor => exact ih.extend e fun _ => rfl
    | expand => exact ih.extend e fun _ => rfl
    | record hs hK ha hx =>
      obtain ⟨_, _, _, _, _, _, hpos, -⟩ := hd.call hs
      exact ih.record hd.toStructured hpos hK hx

theorem Shrinks.owned (h : c.Sound) (g : Shrinks c roots c') (ho : c.Owned) : c'.Owned := by
  induction g with
  | start => exact ho
  | quiet _ _ _ ih => exact ih
  | forgetReturns _ K ih => exact ih.removeReturnEntry K
  | forgetEntry _ _ ih => exact ih
  | fresh g hK hp ih =>
    intro K' xs hxs
    obtain ⟨t, hpos, hkey, hmem⟩ := ih K' xs hxs
    refine ⟨t, hpos, hkey.cacheSet, fun x hx => ?_⟩
    obtain ⟨m, hm, hset⟩ := hmem x hx
    exact ⟨m, live_addReachedSet_iff.2 (Or.inr hm), hset⟩
  | remove g rm ih => exact ih.sheds (g.sound h).toStructured rm
  | stale g _ _ rm ih => exact ih.sheds (g.sound h).toStructured rm

namespace Context

/-! ### What breaks their agreement with the results -/

theorem Owned.returnsAgree_iff (h : c.Owned) : c.ReturnsAgree ↔
    ∀ K s t, c.cache.lookup K = some s → c.Records K t → t = s := by
  constructor
  · rintro hagree K s t hs ⟨-, xs, hxs, x, hx, m, hm, rfl⟩
    obtain ⟨m', hm', hset⟩ := hagree K s xs hs hxs x hx
    rw [← hset, hm.unique hm']
  · intro hown K s xs hs hxs x hx
    obtain ⟨t, -, hkey, hmem⟩ := h K xs hxs
    obtain ⟨m, hm, hset⟩ := hmem x hx
    have hts : t = s := hown K s t hs ⟨hkey, xs, hxs, x, hx, m, hm, hset⟩
    exact ⟨m, hm, hset.trans hts⟩

theorem Owned.records_of_evolves (h : c.Owned) (e : c.Evolves c') {K : Key} {t : SetId}
    (hsame : c'.cache.returnEntry K = c.cache.returnEntry K) (ht : c'.Records K t) :
    c.Records K t := by
  obtain ⟨-, xs, hxs, x, hx, m', hm', rfl⟩ := ht
  obtain ⟨t, -, hkey, hmem⟩ := h K xs (hsame ▸ hxs)
  obtain ⟨m, hm, rfl⟩ := hmem x hx
  obtain ⟨m'', hm'', -, hset, -⟩ := e.node hm.1
  cases Option.some.inj (hm''.symm.trans hm'.1)
  rw [hset]
  exact ⟨hkey, xs, hsame ▸ hxs, x, hx, m, hm, rfl⟩

theorem ReturnsAgree.iff_not_misfiles (hr : c.ReturnsAgree) (h : c.Owned) (h' : c'.Owned)
    (e : c.Evolves c') : c'.ReturnsAgree ↔ ∀ t, ¬ c.Misfiles c' t := by
  rw [h'.returnsAgree_iff]
  constructor
  · rintro hown t (⟨exits, stored, other, -⟩ | ⟨exits, stored, other, -⟩)
    · exact other (hown _ _ _ stored exits)
    · exact other (hown _ _ _ stored exits)
  · intro hno K s t hs ht
    by_contra hts
    by_cases hxs : c'.cache.returnEntry K = c.cache.returnEntry K
    · by_cases hold : c.cache.lookup K = some s
      · exact hts (h.returnsAgree_iff.1 hr K s t hold (h.records_of_evolves e hxs ht))
      · exact hno t (.stored ht hs hts hold)
    · exact hno t (.recorded ht hs hts hxs)

end Context

end Blockwise
