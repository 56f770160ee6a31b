import Blockwise.Data.Bindings

/-!
Finite sets as strictly increasing lists. Every set has one representation, so equality of sets
is equality of their members (`SortedSet.ext`), and `toList` enumerates in ascending order.
-/
namespace Blockwise

structure SortedSet (α : Type) [LT α] where
  toList : List α
  sorted : toList.Pairwise (· < ·)

namespace SortedSet

variable {α : Type} [LT α]

instance [DecidableEq α] : DecidableEq (SortedSet α) := fun s t =>
  decidable_of_iff (s.toList = t.toList) ⟨fun h => by cases s; cases t; simp_all, fun h => h ▸ rfl⟩

instance : Membership α (SortedSet α) := ⟨fun s a => a ∈ s.toList⟩

instance [DecidableEq α] (a : α) (s : SortedSet α) : Decidable (a ∈ s) :=
  inferInstanceAs (Decidable (a ∈ s.toList))

@[simp] theorem mem_toList {a : α} {s : SortedSet α} : a ∈ s.toList ↔ a ∈ s := Iff.rfl

def empty : SortedSet α := ⟨[], .nil⟩

instance : EmptyCollection (SortedSet α) := ⟨empty⟩

instance : Inhabited (SortedSet α) := ⟨empty⟩

@[simp] theorem not_mem_empty (a : α) : a ∉ (∅ : SortedSet α) := List.not_mem_nil

def singleton (a : α) : SortedSet α := ⟨[a], List.pairwise_singleton ..⟩

@[simp] theorem mem_singleton {a b : α} : a ∈ singleton b ↔ a = b := List.mem_singleton

def size (s : SortedSet α) : Nat := s.toList.length

def isEmpty (s : SortedSet α) : Bool := s.toList.isEmpty

def min? (s : SortedSet α) : Option α := s.toList.head?

def max? (s : SortedSet α) : Option α := s.toList.getLast?

theorem min?_spec {a : α} {s : SortedSet α} (h : s.min? = some a) :
    a ∈ s ∧ ∀ b ∈ s, b = a ∨ a < b := by
  obtain ⟨l, hl⟩ := List.head?_eq_some_iff.1 h
  have hs := s.sorted
  rw [hl, List.pairwise_cons] at hs
  have hmem : ∀ b, b ∈ s ↔ b = a ∨ b ∈ l := by
    intro b
    rw [← mem_toList, hl, List.mem_cons]
  exact ⟨(hmem a).2 (Or.inl rfl), fun b hb => ((hmem b).1 hb).imp_right (hs.1 b)⟩

theorem min?_eq_none {s : SortedSet α} : s.min? = none ↔ ∀ a, a ∉ s := by
  rw [min?, List.head?_eq_none_iff, List.eq_nil_iff_forall_not_mem]
  exact Iff.rfl

theorem max?_spec {a : α} {s : SortedSet α} (h : s.max? = some a) :
    a ∈ s ∧ ∀ b ∈ s, b = a ∨ b < a := by
  obtain ⟨l, hl⟩ := List.getLast?_eq_some_iff.1 h
  have hmem : ∀ b, b ∈ s ↔ b ∈ l ∨ b = a := by
    intro b
    rw [← mem_toList, hl, List.mem_append, List.mem_singleton]
  have hs := s.sorted
  rw [hl, List.pairwise_append] at hs
  refine ⟨(hmem a).2 (Or.inr rfl), fun b hb => ?_⟩
  rcases (hmem b).1 hb with hb | hb
  · exact Or.inr (hs.2.2 b hb a (List.mem_singleton.2 rfl))
  · exact Or.inl hb

theorem max?_isSome {a : α} {s : SortedSet α} (h : a ∈ s) : s.max?.isSome := by
  rw [max?, List.getLast?_isSome]
  exact List.ne_nil_of_mem h

def filter (keep : α → Bool) (s : SortedSet α) : SortedSet α :=
  ⟨s.toList.filter keep, s.sorted.filter keep⟩

@[simp] theorem mem_filter {a : α} {keep : α → Bool} {s : SortedSet α} :
    a ∈ s.filter keep ↔ a ∈ s ∧ keep a :=
  List.mem_filter

def erase [DecidableEq α] (a : α) (s : SortedSet α) : SortedSet α := s.filter (· ≠ a)

@[simp] theorem mem_erase [DecidableEq α] {a b : α} {s : SortedSet α} :
    a ∈ s.erase b ↔ a ∈ s ∧ a ≠ b := by
  simp [erase]

def diff [DecidableEq α] (s t : SortedSet α) : SortedSet α := s.filter (· ∉ t)

@[simp] theorem mem_diff [DecidableEq α] {a : α} {s t : SortedSet α} :
    a ∈ s.diff t ↔ a ∈ s ∧ a ∉ t := by
  simp [diff]

variable [DecidableLT α]

def place (a : α) : List α → List α
  | [] => [a]
  | b :: rest => if a < b then a :: b :: rest else if b < a then b :: place a rest else b :: rest

variable [LE α] [Std.IsLinearOrder α] [Std.LawfulOrderLT α]

theorem mem_place {a c : α} {l : List α} : c ∈ place a l ↔ c = a ∨ c ∈ l := by
  induction l with
  | nil => simp [place]
  | cons b rest ih =>
    rw [place]
    split
    · simp
    · split
      · simp only [List.mem_cons, ih]; grind
      · rename_i h₁ h₂
        have : a = b := (Std.lt_trichotomy a b).elim (absurd · h₁) (·.elim id (absurd · h₂))
        simp [this]

theorem place_sorted {a : α} {l : List α} (h : l.Pairwise (· < ·)) :
    (place a l).Pairwise (· < ·) := by
  induction l with
  | nil => exact List.pairwise_singleton ..
  | cons b rest ih =>
    obtain ⟨hb, hrest⟩ := List.pairwise_cons.1 h
    rw [place]
    split
    · rename_i hab
      refine List.pairwise_cons.2 ⟨fun c hc => ?_, h⟩
      cases hc with
      | head => exact hab
      | tail _ hc => exact Std.lt_trans hab (hb c hc)
    · split
      · rename_i hba
        refine List.pairwise_cons.2 ⟨fun c hc => ?_, ih hrest⟩
        rcases mem_place.1 hc with rfl | hc
        · exact hba
        · exact hb c hc
      · exact h

theorem place_of_lt {a : α} {l : List α} (h : ∀ b ∈ l, b < a) : place a l = l ++ [a] := by
  induction l with
  | nil => rfl
  | cons b rest ih =>
    have hb := h b (List.mem_cons_self ..)
    have hrest := ih fun c hc => h c (List.mem_cons_of_mem _ hc)
    rw [place, if_neg fun hab => Std.lt_irrefl (Std.lt_trans hab hb), if_pos hb, hrest,
      List.cons_append]

def insert (a : α) (s : SortedSet α) : SortedSet α := ⟨place a s.toList, place_sorted s.sorted⟩

theorem toList_insert_of_lt {a : α} {s : SortedSet α} (h : ∀ b ∈ s, b < a) :
    (s.insert a).toList = s.toList ++ [a] :=
  place_of_lt h

@[simp] theorem mem_insert {a b : α} {s : SortedSet α} : a ∈ s.insert b ↔ a = b ∨ a ∈ s :=
  mem_place

def insertAll (s : SortedSet α) (l : List α) : SortedSet α := l.foldl (fun s a => s.insert a) s

@[simp] theorem mem_insertAll {a : α} {s : SortedSet α} {l : List α} :
    a ∈ s.insertAll l ↔ a ∈ s ∨ a ∈ l := by
  induction l generalizing s with
  | nil => simp [insertAll]
  | cons b rest ih =>
    have : s.insertAll (b :: rest) = (s.insert b).insertAll rest := rfl
    simp only [this, ih, mem_insert, List.mem_cons]; grind

def ofList (l : List α) : SortedSet α := insertAll ∅ l

@[simp] theorem mem_ofList {a : α} {l : List α} : a ∈ ofList l ↔ a ∈ l := by simp [ofList]

def union (s t : SortedSet α) : SortedSet α := s.insertAll t.toList

@[simp] theorem mem_union {a : α} {s t : SortedSet α} : a ∈ s.union t ↔ a ∈ s ∨ a ∈ t := by
  simp [union]

omit [DecidableLT α] in
@[ext] theorem ext {s t : SortedSet α} (h : ∀ a, a ∈ s ↔ a ∈ t) : s = t := by
  cases s with | mk l hl => cases t with | mk m hm =>
    congr 1; exact eq_of_ascending (fun _ => Std.lt_irrefl) Std.lt_trans hl hm h

section

variable [DecidableEq α] {a : α} {s : SortedSet α}

omit [DecidableLT α] in
theorem erase_of_not_mem (h : a ∉ s) : s.erase a = s := by
  ext b
  rw [mem_erase, and_iff_left_iff_imp]
  rintro hb rfl
  exact h hb

theorem insert_erase : (s.erase a).insert a = s.insert a := by
  ext b
  rw [mem_insert, mem_insert, mem_erase, or_and_left]
  simp [Decidable.em]

end

end SortedSet

abbrev IdSet := SortedSet Nat

end Blockwise
