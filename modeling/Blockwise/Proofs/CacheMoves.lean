import Blockwise.Proofs.CacheHistory

/-!
Moving a result to another precision. Five tables say something about a key; what they say together
is the record of the key. Every operation changes the record of the key it is called with and no
other, and a move is made of four such operations. It clears the record of the old key, but of the
new key only what `insert` clears, the remembered answer. So the record under the new key is a
mixture when that key had a record of its own, and exactly then.
-/
namespace Blockwise.Cache

structure Record where
  result : Option SetId := none
  similar : Option SetId := none
  precise : Bool := false
  first : Option NodeId := none
  exits : Option (List NodeId) := none
  deriving DecidableEq

def Record.over (moved under : Record) : Record where
  result := moved.result
  precise := moved.precise || under.precise
  first := moved.first.or under.first
  exits := under.exits

variable {σ π : Type} [DecidableEq σ] [DecidableEq π] {c c' : Cache σ π}
  {key key' old new : CacheKey σ π} {s : SetId} {p : π}

def record (c : Cache σ π) (key : CacheKey σ π) : Record where
  result := c.lookup key
  similar := c.imprecise.get? key
  precise := c.containsPrecise key
  first := c.blockEntry key
  exits := c.returnEntry key

/-! ### One operation, one record -/

theorem record_removeEntry :
    (c.removeEntry key).record key' = if key' = key then {} else c.record key' := by
  by_cases h : key' = key <;> simp [record, h]
  · exact (Table.get?_erase ..).trans (if_pos rfl)
  · exact (Table.get?_erase ..).trans (if_neg h)

theorem record_insert : (c.insert key s).record key' =
    if key' = key then { c.record key with result := some s, similar := none }
    else c.record key' := by
  by_cases h : key' = key
  · subst h
    simp [record, insert, lookup, containsPrecise, blockEntry, returnEntry]
  · simp [record, insert, lookup, containsPrecise, blockEntry, returnEntry, h, Ne.symm h]

theorem record_markPrecise : (c.markPrecise key).record key' =
    if key' = key then { c.record key with similar := none, precise := true }
    else c.record key' := by
  by_cases h : key' = key
  · subst h
    simp [record, markPrecise, lookup, containsPrecise, Table.contains, blockEntry, returnEntry]
  · simp [record, markPrecise, lookup, containsPrecise, Table.contains, blockEntry, returnEntry, h,
      Ne.symm h]

theorem record_setBlockEntry {first : NodeId} : (c.setBlockEntry key first).record key' =
    if key' = key then { c.record key with first := some first } else c.record key' := by
  by_cases h : key' = key
  · subst h
    simp [record, setBlockEntry, lookup, containsPrecise, blockEntry, returnEntry]
  · simp [record, setBlockEntry, lookup, containsPrecise, blockEntry, returnEntry, h, Ne.symm h]

/-! ### The move -/

theorem updatePrecision_of_ne (h : c.lookup old ≠ some s) : c.updatePrecision old s p = (none, c) :=
  if_neg h

theorem record_updatePrecision (h : c.lookup old = some s) :
    ((c.updatePrecision old s p).2).record key =
      if key = { old with precision := p } then
        (c.record old).over
          (if { old with precision := p } = old then {} else c.record { old with precision := p })
      else if key = old then {} else c.record key := by
  have hresult : (c.record old).result = some s := h
  have hprecise : (c.record old).precise = c.containsPrecise old := rfl
  have hfirst : (c.record old).first = c.blockEntry old := rfl
  simp only [updatePrecision, if_pos h]
  generalize ({ old with precision := p } : CacheKey σ π) = new
  cases hp : c.containsPrecise old <;> cases hb : c.blockEntry old <;>
    by_cases hkey : key = new <;>
    simp [record_setBlockEntry, record_markPrecise, record_insert, record_removeEntry, Record.over,
      hkey, hresult, hprecise, hfirst, hp, hb]

/-- The result `s` moves from `old` to `new` as one entry: the mark and the block entry go with it,
and nothing else of the two keys is left. -/
structure Moves (c : Cache σ π) (old : CacheKey σ π) (s : SetId) (new : CacheKey σ π)
    (c' : Cache σ π) : Prop where
  aggressive : c'.aggressive = c.aggressive
  moved : c'.record new =
    { result := some s, precise := c.containsPrecise old, first := c.blockEntry old }
  cleared : new ≠ old → c'.record old = {}
  others : ∀ key, key ≠ old → key ≠ new → c'.record key = c.record key

/-- What stands under `new` shows through an entry that is moved there from `old`. -/
def Clashes (c : Cache σ π) (old new : CacheKey σ π) : Prop :=
  new ≠ old ∧ (c.returnEntry new ≠ none ∨
    c.containsPrecise new = true ∧ c.containsPrecise old = false ∨
    c.blockEntry new ≠ none ∧ c.blockEntry old = none)

instance : Decidable (c.Clashes old new) := inferInstanceAs (Decidable (_ ∧ _))

theorem over_record_eq_iff (h : c.lookup old = some s) :
    (c.record old).over (if new = old then {} else c.record new) =
        { result := some s, precise := c.containsPrecise old, first := c.blockEntry old } ↔
      ¬ c.Clashes old new := by
  by_cases hnew : new = old
  · simp [Clashes, Record.over, record, hnew, h]
  · simp only [Clashes, Record.over, record, hnew, h, if_false, Record.mk.injEq, ne_eq,
      not_false_eq_true, true_and, not_or]
    cases c.containsPrecise old <;> cases c.blockEntry old <;> simp <;> grind

/-- A set that is not stored under the old key stays where it is. Otherwise it moves, with an exact
account of every record, and it moves as one entry unless something clashes with it. -/
theorem updatePrecision_moves_unless_clashing (c : Cache σ π) (old : CacheKey σ π) (s : SetId)
    (p : π) :
    (c.lookup old ≠ some s → c.updatePrecision old s p = (none, c)) ∧
    (c.lookup old = some s → ∃ new c', new = { old with precision := p } ∧
      c.updatePrecision old s p = (some new, c') ∧ c'.aggressive = c.aggressive ∧
      (∀ key, c'.record key =
        if key = new then (c.record old).over (if new = old then {} else c.record new)
        else if key = old then {} else c.record key) ∧
      (c.Moves old s new c' ↔ ¬ c.Clashes old new)) := by
  refine ⟨updatePrecision_of_ne, fun h => ⟨_, (c.updatePrecision old s p).2, rfl, ?_, ?_, ?_, ?_⟩⟩
  · simp only [updatePrecision, if_pos h]
  · exact (Operation.updatePrecision old s p).aggressive_apply
  · exact fun _ => record_updatePrecision h
  · rw [← over_record_eq_iff h]
    refine ⟨fun hm => ?_, fun hover => ⟨?_, ?_, fun hne => ?_, fun key hold hnew => ?_⟩⟩
    · rw [← hm.moved, record_updatePrecision h, if_pos rfl]
    · exact (Operation.updatePrecision old s p).aggressive_apply
    · rw [record_updatePrecision h, if_pos rfl, hover]
    · rw [record_updatePrecision h, if_neg hne.symm, if_pos rfl]
    · rw [record_updatePrecision h, if_neg hnew, if_neg hold]

def Precisions.operations : List (Operation String String) :=
  [.insert ⟨"x=0", "rough", 10⟩ 1, .markPrecise ⟨"x=0", "rough", 10⟩,
    .setBlockEntry ⟨"x=0", "rough", 10⟩ 7, .insert ⟨"x=0", "exact", 10⟩ 2,
    .setReturnEntry ⟨"x=0", "exact", 10⟩ [4]]

theorem Precisions.moves_unless_clashing :
    (after operations).updatePrecision ⟨"x=0", "rough", 10⟩ 5 "fine" = (none, after operations) ∧
      (after operations).Moves ⟨"x=0", "rough", 10⟩ 1 ⟨"x=0", "fine", 10⟩
        ((after operations).updatePrecision ⟨"x=0", "rough", 10⟩ 1 "fine").2 := by
  refine ⟨(updatePrecision_moves_unless_clashing _ _ 5 "fine").1 (by decide +kernel), ?_⟩
  obtain ⟨_, _, rfl, hmove, -, -, hiff⟩ := (updatePrecision_moves_unless_clashing
    (after operations) ⟨"x=0", "rough", 10⟩ 1 "fine").2 (by decide +kernel)
  rw [hmove]
  exact hiff.2 (by decide +kernel)

theorem updatePrecision_keeps_foreign_exits :
    ¬ ∀ (operations : List (Operation String String)) (old : CacheKey String String) (s : SetId)
      (p : String), (after operations).lookup old = some s →
        (after operations).Moves old s { old with precision := p }
          ((after operations).updatePrecision old s p).2 := by
  intro h
  have hmoved := (h Precisions.operations ⟨"x=0", "rough", 10⟩ 1 "exact" (by decide +kernel)).moved
  exact absurd (congrArg Record.exits hmoved) (by decide +kernel)

end Blockwise.Cache
