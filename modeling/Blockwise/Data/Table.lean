import Blockwise.Data.Bindings

/-!
Look-up tables over keys that have no order. A table lists its bindings in the order in which
their keys came in, and binds every key at most once.
-/
namespace Blockwise

structure Table (κ ν : Type) where
  entries : List (κ × ν)
  distinct : entries.Pairwise (·.1 ≠ ·.1)

namespace Table

open Bindings (find)

variable {κ ν : Type}

instance : EmptyCollection (Table κ ν) := ⟨⟨[], .nil⟩⟩

instance : Inhabited (Table κ ν) := ⟨∅⟩

instance [DecidableEq κ] [DecidableEq ν] : DecidableEq (Table κ ν) := fun m n =>
  decidable_of_iff (m.entries = n.entries)
    ⟨fun h => by cases m; cases n; simp_all, fun h => h ▸ rfl⟩

def size (t : Table κ ν) : Nat := t.entries.length

def filter (keep : κ → ν → Bool) (t : Table κ ν) : Table κ ν :=
  ⟨t.entries.filter fun e => keep e.1 e.2, t.distinct.filter _⟩

variable [DecidableEq κ]

def get? (t : Table κ ν) (k : κ) : Option ν := find k t.entries

def contains (t : Table κ ν) (k : κ) : Bool := (t.get? k).isSome

@[simp] theorem get?_empty (k : κ) : (∅ : Table κ ν).get? k = none := rfl

theorem mem_entries_iff {t : Table κ ν} {k : κ} {v : ν} :
    (k, v) ∈ t.entries ↔ t.get? k = some v :=
  (Bindings.find_eq_some_iff t.distinct).symm

theorem get?_filter (keep : κ → ν → Bool) (t : Table κ ν) (k : κ) :
    (t.filter keep).get? k = (t.get? k).filter (keep k) := by
  refine Option.ext fun v => ?_
  rw [← mem_entries_iff, Option.filter_eq_some_iff, ← mem_entries_iff]
  simp [filter]

theorem get?_of_filter {keep : κ → ν → Bool} {t : Table κ ν} {k : κ} {v : ν}
    (h : (t.filter keep).get? k = some v) : t.get? k = some v := by
  rw [get?_filter] at h
  exact (Option.filter_eq_some_iff.1 h).1

def erase (k : κ) (t : Table κ ν) : Table κ ν := t.filter fun k' _ => k' ≠ k

@[simp] theorem get?_erase (t : Table κ ν) (k k' : κ) :
    (t.erase k).get? k' = if k' = k then none else t.get? k' := by
  rw [erase, get?_filter]
  by_cases h : k' = k <;> cases t.get? k' <;> simp [h]

theorem get?_of_erase {t : Table κ ν} {k k' : κ} {v : ν} (h : (t.erase k).get? k' = some v) :
    t.get? k' = some v :=
  get?_of_filter h

def place (k : κ) (v : ν) : List (κ × ν) → List (κ × ν)
  | [] => [(k, v)]
  | (k', v') :: rest => if k' = k then (k, v) :: rest else (k', v') :: place k v rest

theorem key_of_mem_place {k : κ} {v : ν} {l : List (κ × ν)} {e : κ × ν} (h : e ∈ place k v l) :
    e.1 = k ∨ e ∈ l := by
  induction l with
  | nil => simp_all [place]
  | cons e' rest ih => grind [place]

theorem place_distinct {k : κ} {v : ν} {l : List (κ × ν)} (h : l.Pairwise (·.1 ≠ ·.1)) :
    (place k v l).Pairwise (·.1 ≠ ·.1) := by
  induction l with
  | nil => exact List.pairwise_singleton ..
  | cons e rest ih =>
    obtain ⟨k', v'⟩ := e
    obtain ⟨hk, hrest⟩ := List.pairwise_cons.1 h
    rw [place]
    split
    · rename_i heq
      subst heq
      exact List.pairwise_cons.2 ⟨hk, hrest⟩
    · rename_i hne
      refine List.pairwise_cons.2 ⟨fun c hc => ?_, ih hrest⟩
      rcases key_of_mem_place hc with hc | hc
      · exact hc ▸ hne
      · exact hk c hc

theorem find_place (k k' : κ) (v : ν) (l : List (κ × ν)) :
    find k' (place k v l) = if k = k' then some v else find k' l := by
  induction l with
  | nil => simp [place, find]
  | cons e rest ih => grind [place, find]

def insert (k : κ) (v : ν) (t : Table κ ν) : Table κ ν :=
  ⟨place k v t.entries, place_distinct t.distinct⟩

@[simp] theorem get?_insert (t : Table κ ν) (k k' : κ) (v : ν) :
    (t.insert k v).get? k' = if k = k' then some v else t.get? k' :=
  find_place ..

theorem forall_insert {P : κ → ν → Prop} {t : Table κ ν} {k k' : κ} {v v' : ν} (hk : P k v)
    (h : ∀ {k v}, t.get? k = some v → P k v) (h' : (t.insert k v).get? k' = some v') : P k' v' := by
  rw [get?_insert] at h'
  split at h'
  · rename_i heq
    cases h'
    exact heq ▸ hk
  · exact h h'

def ofList (l : List (κ × ν)) : Table κ ν := l.foldl (fun t e => t.insert e.1 e.2) ∅

theorem contains_eq_true_iff {t : Table κ ν} {k : κ} :
    t.contains k = true ↔ ∃ v, t.get? k = some v :=
  Option.isSome_iff_exists

end Table

end Blockwise
