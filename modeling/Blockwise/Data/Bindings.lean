/-!
Lists as descriptions of finite sets and maps: a list that ascends for a strict order is
determined by its members, and a list of bindings binds a key to the first value listed for it.
-/
namespace Blockwise

theorem eq_of_ascending {α : Type} {r : α → α → Prop} (irrefl : ∀ a, ¬ r a a)
    (trans : ∀ {a b c}, r a b → r b c → r a c) {l m : List α} (hl : l.Pairwise r)
    (hm : m.Pairwise r) (h : ∀ a, a ∈ l ↔ a ∈ m) : l = m := by
  induction l generalizing m with
  | nil => cases m with
    | nil => rfl
    | cons b m => simpa using (h b).2
  | cons a l ih => cases m with
    | nil => simpa using (h a).1
    | cons b m =>
      obtain ⟨ha, hl⟩ := List.pairwise_cons.1 hl
      obtain ⟨hb, hm'⟩ := List.pairwise_cons.1 hm
      have hab : a = b := by
        rcases List.mem_cons.1 ((h a).1 (List.mem_cons_self ..)) with e | hmem
        · exact e
        · rcases List.mem_cons.1 ((h b).2 (List.mem_cons_self ..)) with e | hmem'
          · exact e.symm
          · exact absurd (trans (hb a hmem) (ha b hmem')) (irrefl b)
      subst hab
      congr 1
      refine ih hl hm' fun c => ⟨fun hc => ?_, fun hc => ?_⟩
      · exact (List.mem_cons.1 ((h c).1 (List.mem_cons_of_mem _ hc))).resolve_left
          fun e => irrefl a (e ▸ ha c hc)
      · exact (List.mem_cons.1 ((h c).2 (List.mem_cons_of_mem _ hc))).resolve_left
          fun e => irrefl a (e ▸ hb c hc)

namespace Bindings

variable {κ ν : Type} [DecidableEq κ]

def find (k : κ) : List (κ × ν) → Option ν
  | [] => none
  | (k', v) :: rest => if k' = k then some v else find k rest

theorem find_filter (keep : κ → Bool) (k : κ) (l : List (κ × ν)) :
    find k (l.filter (keep ·.1)) = if keep k then find k l else none := by
  induction l with
  | nil => simp [find]
  | cons e rest ih => grind [find]

theorem find_eq_none_iff {k : κ} {l : List (κ × ν)} : find k l = none ↔ ∀ e ∈ l, e.1 ≠ k := by
  induction l with
  | nil => simp [find]
  | cons e rest ih => grind [find]

theorem find_eq_some_iff {k : κ} {v : ν} {l : List (κ × ν)} (hl : l.Pairwise (·.1 ≠ ·.1)) :
    find k l = some v ↔ (k, v) ∈ l := by
  induction l with
  | nil => simp [find]
  | cons e rest ih =>
    obtain ⟨a, b⟩ := e
    obtain ⟨ha, hrest⟩ := List.pairwise_cons.1 hl
    rw [find]
    split
    · rename_i h
      subst h
      refine ⟨fun h => by simp_all, fun h => ?_⟩
      rcases List.mem_cons.1 h with h | h
      · simp_all
      · exact (ha _ h rfl).elim
    · rw [ih hrest]; grind

end Bindings

end Blockwise
