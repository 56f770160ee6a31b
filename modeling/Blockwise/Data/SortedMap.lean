import Blockwise.Data.Bindings

/-!
Finite maps as lists of bindings with strictly ascending keys. Every map has one representation,
so maps that look up equal everywhere are equal (`SortedMap.ext`).
-/
namespace Blockwise

structure SortedMap (κ ν : Type) [LT κ] where
  entries : List (κ × ν)
  sorted : entries.Pairwise (·.1 < ·.1)

namespace SortedMap

open Bindings (find)

variable {κ ν : Type} [LT κ] [DecidableEq κ]

instance [DecidableEq ν] : DecidableEq (SortedMap κ ν) := fun m n =>
  decidable_of_iff (m.entries = n.entries)
    ⟨fun h => by cases m; cases n; simp_all, fun h => h ▸ rfl⟩

instance : EmptyCollection (SortedMap κ ν) := ⟨⟨[], .nil⟩⟩

instance : Inhabited (SortedMap κ ν) := ⟨∅⟩

def get? (m : SortedMap κ ν) (k : κ) : Option ν := find k m.entries

@[simp] theorem get?_empty (k : κ) : (∅ : SortedMap κ ν).get? k = none := rfl

def restrict (keep : κ → Bool) (m : SortedMap κ ν) : SortedMap κ ν :=
  ⟨m.entries.filter (keep ·.1), m.sorted.filter _⟩

@[simp] theorem get?_restrict (keep : κ → Bool) (m : SortedMap κ ν) (k : κ) :
    (m.restrict keep).get? k = if keep k then m.get? k else none :=
  Bindings.find_filter keep k m.entries

def erase (k : κ) (m : SortedMap κ ν) : SortedMap κ ν := m.restrict (· ≠ k)

@[simp] theorem get?_erase (m : SortedMap κ ν) (k k' : κ) :
    (m.erase k).get? k' = if k' = k then none else m.get? k' := by
  by_cases h : k' = k <;> simp [erase, h]

variable [DecidableLT κ]

def place (k : κ) (v : ν) : List (κ × ν) → List (κ × ν)
  | [] => [(k, v)]
  | (k', v') :: rest =>
    if k < k' then (k, v) :: (k', v') :: rest
    else if k' < k then (k', v') :: place k v rest
    else (k, v) :: rest

omit [DecidableEq κ] in
theorem key_of_mem_place {k : κ} {v : ν} {l : List (κ × ν)} {e : κ × ν} (h : e ∈ place k v l) :
    e.1 = k ∨ e ∈ l := by
  induction l with
  | nil => simp_all [place]
  | cons e' rest ih =>
    obtain ⟨k', v'⟩ := e'
    rw [place] at h
    grind

variable [LE κ] [Std.IsLinearOrder κ] [Std.LawfulOrderLT κ]

omit [DecidableEq κ] in
theorem place_sorted {k : κ} {v : ν} {l : List (κ × ν)} (h : l.Pairwise (·.1 < ·.1)) :
    (place k v l).Pairwise (·.1 < ·.1) := by
  induction l with
  | nil => exact List.pairwise_singleton ..
  | cons e rest ih =>
    obtain ⟨k', v'⟩ := e
    obtain ⟨hk, hrest⟩ := List.pairwise_cons.1 h
    rw [place]
    split
    · rename_i hlt
      refine List.pairwise_cons.2 ⟨fun c hc => ?_, h⟩
      cases hc with
      | head => exact hlt
      | tail _ hc => exact Std.lt_trans hlt (hk c hc)
    · split
      · rename_i hlt
        refine List.pairwise_cons.2 ⟨fun c hc => ?_, ih hrest⟩
        rcases key_of_mem_place hc with hc | hc
        · exact hc ▸ hlt
        · exact hk c hc
      · rename_i h₁ h₂
        have : k = k' := (Std.lt_trichotomy k k').elim (absurd · h₁) (·.elim id (absurd · h₂))
        subst this
        exact List.pairwise_cons.2 ⟨hk, hrest⟩

theorem find_place (k k' : κ) (v : ν) (l : List (κ × ν)) :
    find k' (place k v l) = if k = k' then some v else find k' l := by
  induction l with
  | nil => simp [place, find]
  | cons e rest ih =>
    obtain ⟨a, b⟩ := e
    rw [place]
    split
    · simp [find]
    · split
      · rename_i h
        have : a ≠ k := fun e => Std.lt_irrefl (e ▸ h)
        grind [find]
      · rename_i h₁ h₂
        have : k = a := (Std.lt_trichotomy k a).elim (absurd · h₁) (·.elim id (absurd · h₂))
        grind [find]

def insert (k : κ) (v : ν) (m : SortedMap κ ν) : SortedMap κ ν :=
  ⟨place k v m.entries, place_sorted m.sorted⟩

@[simp] theorem get?_insert (m : SortedMap κ ν) (k k' : κ) (v : ν) :
    (m.insert k v).get? k' = if k = k' then some v else m.get? k' :=
  find_place ..

def insertAll (m : SortedMap κ ν) (l : List (κ × ν)) : SortedMap κ ν :=
  l.foldl (fun m e => m.insert e.1 e.2) m

def ofList (l : List (κ × ν)) : SortedMap κ ν := insertAll ∅ l

/-- The bindings of both maps; `n` wins where both bind a key. -/
def override (m n : SortedMap κ ν) : SortedMap κ ν := m.insertAll n.entries

theorem get?_insertAll (l : List (κ × ν)) (hl : l.Pairwise (·.1 < ·.1)) (m : SortedMap κ ν)
    (k : κ) : (m.insertAll l).get? k = (find k l).or (m.get? k) := by
  induction l generalizing m with
  | nil => rfl
  | cons e rest ih =>
    obtain ⟨a, b⟩ := e
    obtain ⟨ha, hrest⟩ := List.pairwise_cons.1 hl
    have step : m.insertAll ((a, b) :: rest) = (m.insert a b).insertAll rest := rfl
    rw [step, ih hrest, get?_insert, find]
    split
    · rename_i h
      subst h
      rw [Bindings.find_eq_none_iff.2 fun e he h => Std.lt_irrefl (h ▸ ha e he)]
      rfl
    · rfl

@[simp] theorem get?_override (m n : SortedMap κ ν) (k : κ) :
    (m.override n).get? k = (n.get? k).or (m.get? k) :=
  get?_insertAll n.entries n.sorted m k

omit [DecidableLT κ] [Std.IsLinearOrder κ] in
theorem mem_entries_iff {m : SortedMap κ ν} {k : κ} {v : ν} :
    (k, v) ∈ m.entries ↔ m.get? k = some v :=
  (Bindings.find_eq_some_iff (m.sorted.imp fun h => Std.ne_of_lt h)).symm

omit [DecidableLT κ] in
@[ext] theorem ext {m n : SortedMap κ ν} (h : ∀ k, m.get? k = n.get? k) : m = n := by
  have mem : ∀ e, e ∈ m.entries ↔ e ∈ n.entries := fun (k, v) => by
    rw [mem_entries_iff, mem_entries_iff, h]
  cases m with | mk l hl => cases n with | mk l' hl' =>
    congr 1
    exact eq_of_ascending (r := fun d e => d.1 < e.1) (fun _ => Std.lt_irrefl) Std.lt_trans hl hl'
      mem

end SortedMap

end Blockwise
