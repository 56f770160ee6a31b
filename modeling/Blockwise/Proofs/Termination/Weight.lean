import Mathlib.Data.Multiset.DershowitzManna
import Mathlib.Order.WellFounded

/-!
Weights of work that is still to be done: a number of things that can be found only once, and
behind it the ranks of the tasks that wait. A task may be replaced by any number of tasks of lower
rank; when a new thing is found, any tasks may come with it.
-/
namespace Blockwise

open Multiset (IsDershowitzMannaLT)

/-- What can still be found, and the ranks of the waiting tasks. -/
abbrev Weight := Nat × Multiset Nat

namespace Weight

variable {v w u : Weight}

def Lt : Weight → Weight → Prop := Prod.Lex (· < ·) IsDershowitzMannaLT

def Le (v w : Weight) : Prop := v = w ∨ v.Lt w

theorem wellFounded_lt : WellFounded Lt :=
  WellFounded.prod_lex Nat.lt_wfRel.wf Multiset.wellFounded_isDershowitzMannaLT

theorem Lt.trans (h : v.Lt w) (h' : w.Lt u) : v.Lt u := by
  obtain ⟨p, m⟩ := v
  obtain ⟨q, k⟩ := w
  obtain ⟨r, l⟩ := u
  rcases Prod.lex_def.1 h with h | ⟨h, hm⟩ <;> rcases Prod.lex_def.1 h' with h' | ⟨h', hm'⟩
  · exact .left _ _ (Nat.lt_trans h h')
  · exact .left _ _ (Nat.lt_of_lt_of_eq h h')
  · exact .left _ _ (h.trans_lt h')
  · exact Prod.lex_def.2 (Or.inr ⟨h.trans h', hm.trans hm'⟩)

theorem Le.refl (w : Weight) : w.Le w := Or.inl rfl

theorem Le.trans (h : v.Le w) (h' : w.Le u) : v.Le u := by
  rcases h with rfl | h
  · exact h'
  · rcases h' with rfl | h'
    · exact Or.inr h
    · exact Or.inr (h.trans h')

theorem Le.trans_lt (h : v.Le w) (h' : w.Lt u) : v.Lt u := by
  rcases h with rfl | h
  · exact h'
  · exact h.trans h'

theorem Lt.trans_le (h : v.Lt w) (h' : w.Le u) : v.Lt u := by
  rcases h' with rfl | h'
  · exact h
  · exact h.trans h'

theorem lt_of_found (h : v.1 < w.1) : v.Lt w := Prod.lex_def.2 (Or.inl h)

theorem le_of_fewer (h : v.1 ≤ w.1) (hm : v.2 ≤ w.2) : v.Le w := by
  rcases Nat.lt_or_eq_of_le h with h | h
  · exact Or.inr (lt_of_found h)
  · obtain ⟨k, hk⟩ := Multiset.le_iff_exists_add.1 hm
    rcases eq_or_ne k 0 with rfl | hne
    · exact Or.inl (Prod.ext h (by rw [hk, add_zero]))
    · exact Or.inr (Prod.lex_def.2 (Or.inr ⟨h, v.2, 0, k, hne, by simp, hk, by simp⟩))

theorem lt_of_replaced {rank : Nat} {k : Multiset Nat} (h : v.1 ≤ w.1) (hm : v.2 ≤ w.2 + k)
    (hk : ∀ a ∈ k, a < rank) : v.Lt (w.1, w.2 + {rank}) := by
  have hle : v.Le (w.1, w.2 + k) := le_of_fewer h hm
  refine hle.trans_lt (Prod.lex_def.2 (Or.inr ⟨rfl, w.2, k, {rank}, by simp, rfl, rfl, ?_⟩))
  exact fun a ha => ⟨rank, Multiset.mem_singleton_self rank, hk a ha⟩

theorem Le.add (h : v.Le w) (k : Multiset Nat) : Le (v.1, v.2 + k) (w.1, w.2 + k) := by
  rcases h with rfl | h
  · exact .refl _
  · rcases Prod.lex_def.1 h with h | ⟨h, x, y, z, hz, hv, hw, hlt⟩
    · exact Or.inr (lt_of_found h)
    · refine Or.inr (Prod.lex_def.2 (Or.inr ⟨h, x + k, y, z, hz, ?_, ?_, hlt⟩))
      · rw [hv, add_right_comm]
      · rw [hw, add_right_comm]

end Weight

end Blockwise
