import Blockwise.Data.Table
import Blockwise.Identifier

/-!
The cache of block results. A key is the reduced entry state and precision of an invocation and the
call node of its block; under it stands the reached set that explores the block from that entry.
Two more look-ups are kept per key, the first node of the set and the exits found so far.

An aggressive cache also answers with a result that was computed for another precision. Such
answers are remembered apart from the results, so that they never show up as exact ones, and keys
marked precise never get one.
-/
namespace Blockwise

structure CacheKey (σ π : Type) where
  state : σ
  precision : π
  block : Location
  deriving DecidableEq

structure Cache (σ π : Type) where
  aggressive : Bool
  reached : Table (CacheKey σ π) SetId := ∅
  /-- Answers given for keys without a result of their own. -/
  imprecise : Table (CacheKey σ π) SetId := ∅
  precise : Table (CacheKey σ π) Unit := ∅
  blockEntries : Table (CacheKey σ π) NodeId := ∅
  returnEntries : Table (CacheKey σ π) (List NodeId) := ∅
  deriving DecidableEq

namespace Cache

variable {σ π : Type}

def size (c : Cache σ π) : Nat := c.reached.size

def isEmpty (c : Cache σ π) : Bool := c.reached.entries.isEmpty

variable [DecidableEq σ] [DecidableEq π]

def lookup (c : Cache σ π) (key : CacheKey σ π) : Option SetId := c.reached.get? key

def containsPrecise (c : Cache σ π) (key : CacheKey σ π) : Bool := c.precise.contains key

def oldestSimilar (c : Cache σ π) (key : CacheKey σ π) : Option SetId :=
  ((c.reached.entries.filter fun e => e.1.block = key.block ∧ e.1.state = key.state).map (·.2)).min?

/-- A result for the same state and block under another precision, for keys that are not precise.
The answer is remembered. -/
def lookupSimilar (c : Cache σ π) (key : CacheKey σ π) : Option SetId × Cache σ π :=
  if !c.aggressive || c.containsPrecise key then (none, c)
  else match c.imprecise.get? key with
    | some set => (some set, c)
    | none => match c.oldestSimilar key with
      | some set => (some set, { c with imprecise := c.imprecise.insert key set })
      | none => (none, c)

def insert (key : CacheKey σ π) (set : SetId) (c : Cache σ π) : Cache σ π :=
  { c with imprecise := c.imprecise.erase key, reached := c.reached.insert key set }

def markPrecise (key : CacheKey σ π) (c : Cache σ π) : Cache σ π :=
  { c with imprecise := c.imprecise.erase key, precise := c.precise.insert key () }

def removeEntry (key : CacheKey σ π) (c : Cache σ π) : Cache σ π :=
  { c with
    imprecise := c.imprecise.erase key
    precise := c.precise.erase key
    blockEntries := c.blockEntries.erase key
    returnEntries := c.returnEntries.erase key
    reached := c.reached.erase key }

def blockEntry (c : Cache σ π) (key : CacheKey σ π) : Option NodeId := c.blockEntries.get? key

def setBlockEntry (key : CacheKey σ π) (first : NodeId) (c : Cache σ π) : Cache σ π :=
  { c with blockEntries := c.blockEntries.insert key first }

def removeBlockEntry (key : CacheKey σ π) (c : Cache σ π) : Cache σ π :=
  { c with blockEntries := c.blockEntries.erase key }

def returnEntry (c : Cache σ π) (key : CacheKey σ π) : Option (List NodeId) :=
  c.returnEntries.get? key

def setReturnEntry (key : CacheKey σ π) (exits : List NodeId) (c : Cache σ π) : Cache σ π :=
  { c with returnEntries := c.returnEntries.insert key exits }

def removeReturnEntry (key : CacheKey σ π) (c : Cache σ π) : Cache σ π :=
  { c with returnEntries := c.returnEntries.erase key }

/-- Moves the result, its precise mark and its block entry to the key with another precision. -/
def updatePrecision (old : CacheKey σ π) (set : SetId) (precision : π) (c : Cache σ π) :
    Option (CacheKey σ π) × Cache σ π :=
  if c.lookup old = some set then
    let new : CacheKey σ π := { old with precision }
    let moved := (c.removeEntry old).insert new set
    let marked := if c.containsPrecise old then moved.markPrecise new else moved
    let entered := match c.blockEntry old with
      | some first => marked.setBlockEntry new first
      | none => marked
    (some new, entered)
  else (none, c)

variable {c : Cache σ π} {key key' : CacheKey σ π}

@[simp] theorem lookup_insert (set : SetId) :
    (c.insert key set).lookup key' = if key = key' then some set else c.lookup key' :=
  Table.get?_insert ..

@[simp] theorem lookup_markPrecise : (c.markPrecise key).lookup key' = c.lookup key' := rfl

@[simp] theorem lookup_setBlockEntry (first : NodeId) :
    (c.setBlockEntry key first).lookup key' = c.lookup key' := rfl

@[simp] theorem lookup_removeEntry :
    (c.removeEntry key).lookup key' = if key' = key then none else c.lookup key' :=
  Table.get?_erase ..

@[simp] theorem containsPrecise_insert (set : SetId) :
    (c.insert key set).containsPrecise key' = c.containsPrecise key' := rfl

@[simp] theorem containsPrecise_markPrecise :
    (c.markPrecise key).containsPrecise key' = (decide (key = key') || c.containsPrecise key') := by
  by_cases h : key = key' <;> simp [containsPrecise, markPrecise, Table.contains, h]

@[simp] theorem containsPrecise_setBlockEntry (first : NodeId) :
    (c.setBlockEntry key first).containsPrecise key' = c.containsPrecise key' := rfl

@[simp] theorem containsPrecise_removeEntry :
    (c.removeEntry key).containsPrecise key' = (decide (key' ≠ key) && c.containsPrecise key') := by
  by_cases h : key' = key <;> simp [containsPrecise, removeEntry, Table.contains, h]

@[simp] theorem blockEntry_setBlockEntry (first : NodeId) :
    (c.setBlockEntry key first).blockEntry key' =
      if key = key' then some first else c.blockEntry key' :=
  Table.get?_insert ..

@[simp] theorem blockEntry_removeEntry :
    (c.removeEntry key).blockEntry key' = if key' = key then none else c.blockEntry key' :=
  Table.get?_erase ..

@[simp] theorem returnEntry_setReturnEntry (exits : List NodeId) :
    (c.setReturnEntry key exits).returnEntry key' =
      if key = key' then some exits else c.returnEntry key' :=
  Table.get?_insert ..

@[simp] theorem returnEntry_removeEntry :
    (c.removeEntry key).returnEntry key' = if key' = key then none else c.returnEntry key' :=
  Table.get?_erase ..

theorem oldestSimilar_spec {set : SetId} (h : c.oldestSimilar key = some set) :
    ∃ other, c.lookup other = some set ∧ other.block = key.block ∧ other.state = key.state := by
  have hset := List.min?_mem h
  obtain ⟨⟨other, _⟩, he, rfl⟩ := List.mem_map.1 hset
  obtain ⟨he, hother⟩ := List.mem_filter.1 he
  exact ⟨other, Table.mem_entries_iff.1 he, by simpa using hother⟩

theorem lookupSimilar_cases (c : Cache σ π) (key : CacheKey σ π) :
    c.lookupSimilar key = (none, c) ∨
      (c.aggressive = true ∧ c.containsPrecise key = false) ∧ ∃ set,
        (c.imprecise.get? key = some set ∧ c.lookupSimilar key = (some set, c)) ∨
        (c.imprecise.get? key = none ∧ c.oldestSimilar key = some set ∧ c.lookupSimilar key =
          (some set, { c with imprecise := c.imprecise.insert key set })) := by
  unfold lookupSimilar
  split
  · exact Or.inl rfl
  · rename_i hasked
    have hasked : c.aggressive = true ∧ c.containsPrecise key = false := by simpa using hasked
    split
    · rename_i set hset
      exact Or.inr ⟨hasked, set, Or.inl ⟨hset, rfl⟩⟩
    · rename_i hnone
      split
      · rename_i set hset
        exact Or.inr ⟨hasked, set, Or.inr ⟨hnone, hset, rfl⟩⟩
      · exact Or.inl rfl

theorem lookupSimilar_eq_some {c' : Cache σ π} {set : SetId}
    (h : c.lookupSimilar key = (some set, c')) :
    c.aggressive = true ∧ c.containsPrecise key = false ∧
      (c.imprecise.get? key = some set ∧ c' = c ∨
        c.imprecise.get? key = none ∧ c.oldestSimilar key = some set ∧
          c' = { c with imprecise := c.imprecise.insert key set }) := by
  rcases c.lookupSimilar_cases key with hno | ⟨⟨hagg, hp⟩, set', ⟨hi, hs⟩ | ⟨hi, hold, hs⟩⟩
  · cases hno.symm.trans h
  · cases hs.symm.trans h
    exact ⟨hagg, hp, Or.inl ⟨hi, rfl⟩⟩
  · cases hs.symm.trans h
    exact ⟨hagg, hp, Or.inr ⟨hi, hold, rfl⟩⟩

theorem lookupSimilar_eq_none {c' : Cache σ π} (h : c.lookupSimilar key = (none, c')) : c' = c := by
  rcases c.lookupSimilar_cases key with hno | ⟨-, _, ⟨-, hs⟩ | ⟨-, -, hs⟩⟩
  · exact (Prod.mk.inj (h.symm.trans hno)).2
  · cases hs.symm.trans h
  · cases hs.symm.trans h

theorem lookupSimilar_snd (c : Cache σ π) (key : CacheKey σ π) :
    ∃ imprecise, (c.lookupSimilar key).2 = { c with imprecise } := by
  rcases c.lookupSimilar_cases key with h | ⟨-, _, ⟨-, h⟩ | ⟨-, -, h⟩⟩ <;>
    exact ⟨_, congrArg Prod.snd h⟩

end Cache

end Blockwise
