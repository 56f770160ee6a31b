import Mathlib.Data.List.Induction
import Blockwise.Cache

/-!
What a cache answers in the course of its operations. An aggressive cache remembers the similar
results it gave, and an operation forgets the answer for the key it is called with, not the answers
that name the set it moves or drops. So an answer tells of the moment at which it was first given:
then a result for the state and block was stored, and since then the cache has always said the same.
-/
namespace Blockwise.Cache

/-- The operations that change a cache; all others only read it. -/
inductive Operation (σ π : Type)
  | lookupSimilar (key : CacheKey σ π)
  | insert (key : CacheKey σ π) (set : SetId)
  | markPrecise (key : CacheKey σ π)
  | removeEntry (key : CacheKey σ π)
  | setBlockEntry (key : CacheKey σ π) (first : NodeId)
  | removeBlockEntry (key : CacheKey σ π)
  | setReturnEntry (key : CacheKey σ π) (exits : List NodeId)
  | removeReturnEntry (key : CacheKey σ π)
  | updatePrecision (old : CacheKey σ π) (set : SetId) (precision : π)

variable {σ π : Type} [DecidableEq σ] [DecidableEq π] {c : Cache σ π} {key : CacheKey σ π}
  {s : SetId}

def Operation.apply (c : Cache σ π) : Operation σ π → Cache σ π
  | lookupSimilar key => (c.lookupSimilar key).2
  | insert key set => c.insert key set
  | markPrecise key => c.markPrecise key
  | removeEntry key => c.removeEntry key
  | setBlockEntry key first => c.setBlockEntry key first
  | removeBlockEntry key => c.removeBlockEntry key
  | setReturnEntry key exits => c.setReturnEntry key exits
  | removeReturnEntry key => c.removeReturnEntry key
  | updatePrecision old set precision => (c.updatePrecision old set precision).2

def after (operations : List (Operation σ π)) : Cache σ π :=
  operations.foldl Operation.apply { aggressive := true }

@[simp] theorem after_concat (operations : List (Operation σ π)) (operation : Operation σ π) :
    after (operations ++ [operation]) = operation.apply (after operations) := by
  simp [after]

/-- A result for the state and block of `key` is stored, under another precision unless `key` has a
result of its own. -/
def Backs (c : Cache σ π) (key : CacheKey σ π) (s : SetId) : Prop :=
  ∃ other, c.lookup other = some s ∧ other.state = key.state ∧ other.block = key.block ∧
    (c.lookup key = none → other.precision ≠ key.precision)

theorem backs_of_oldestSimilar (h : c.oldestSimilar key = some s) : c.Backs key s := by
  obtain ⟨other, hs, hblock, hstate⟩ := oldestSimilar_spec h
  refine ⟨other, hs, hstate, hblock, fun hnone hp => ?_⟩
  have hsame : other = key := by
    cases other
    cases key
    simp_all
  rw [hsame, hnone] at hs
  cases hs

structure Remembers (c : Cache σ π) : Prop where
  aggressive : c.aggressive = true
  unmarked : ∀ {key s}, c.imprecise.get? key = some s → c.containsPrecise key = false

theorem Remembers.answers (h : c.Remembers) (hs : c.imprecise.get? key = some s) :
    (c.lookupSimilar key).1 = some s := by
  simp [lookupSimilar, h.aggressive, h.unmarked hs, hs]

theorem remembered_updatePrecision {old : CacheKey σ π} {set : SetId} {precision : π}
    (hs : (c.updatePrecision old set precision).2.imprecise.get? key = some s) :
    c.imprecise.get? key = some s ∧
      (c.updatePrecision old set precision).2.containsPrecise key = c.containsPrecise key := by
  unfold updatePrecision at hs ⊢
  split at hs
  · rename_i hset
    rw [if_pos hset]
    generalize ({ old with precision } : CacheKey σ π) = new at hs ⊢
    revert hs
    cases c.containsPrecise old <;> cases c.blockEntry old <;> intro hs <;>
      simp only [insert, removeEntry, markPrecise, setBlockEntry, containsPrecise, Table.contains,
        Bool.false_eq_true, if_false, if_true, Table.get?_erase, Table.get?_insert] at hs ⊢ <;>
      grind
  · rename_i hset
    rw [if_neg hset]
    exact ⟨hs, rfl⟩

theorem Remembers.answers_before (h : c.Remembers) (operation : Operation σ π)
    (hs : (operation.apply c).imprecise.get? key = some s) :
    (c.lookupSimilar key).1 = some s ∧
      (operation.apply c).containsPrecise key = c.containsPrecise key := by
  -- An operation that forgets the answer for its own key leaves those for the others.
  have erased : ∀ {key' : CacheKey σ π}, (c.imprecise.erase key').get? key = some s →
      key ≠ key' ∧ (c.lookupSimilar key).1 = some s := by
    intro key' hs
    rw [Table.get?_erase] at hs
    split at hs
    · cases hs
    · rename_i hne
      exact ⟨hne, h.answers hs⟩
  cases operation with
  | lookupSimilar key' =>
    rcases c.lookupSimilar_cases key' with hsim | ⟨-, set, ⟨-, hsim⟩ | ⟨-, -, hsim⟩⟩ <;>
      simp only [Operation.apply, hsim] at hs ⊢
    · exact ⟨h.answers hs, trivial⟩
    · exact ⟨h.answers hs, trivial⟩
    · rw [Table.get?_insert] at hs
      split at hs
      · rename_i heq
        subst heq
        exact ⟨by rw [hsim, hs], rfl⟩
      · exact ⟨h.answers hs, rfl⟩
  | insert key' set => exact ⟨(erased hs).2, rfl⟩
  | markPrecise key' =>
    obtain ⟨hne, hs⟩ := erased hs
    exact ⟨hs, by simp [Operation.apply, Ne.symm hne]⟩
  | removeEntry key' =>
    obtain ⟨hne, hs⟩ := erased hs
    exact ⟨hs, by simp [Operation.apply, hne]⟩
  | setBlockEntry | removeBlockEntry | setReturnEntry | removeReturnEntry =>
    exact ⟨h.answers hs, rfl⟩
  | updatePrecision old set precision =>
    obtain ⟨hs, hmark⟩ := remembered_updatePrecision hs
    exact ⟨h.answers hs, hmark⟩

theorem not_containsPrecise_of_lookupSimilar (h : (c.lookupSimilar key).1 = some s) :
    c.containsPrecise key = false := by
  rcases c.lookupSimilar_cases key with hno | ⟨⟨-, hp⟩, -⟩
  · rw [hno] at h
    cases h
  · exact hp

theorem Operation.aggressive_apply (operation : Operation σ π) :
    (operation.apply c).aggressive = c.aggressive := by
  cases operation with
  | lookupSimilar key =>
    obtain ⟨imprecise, h⟩ := c.lookupSimilar_snd key
    simp only [Operation.apply, h]
  | updatePrecision old set precision =>
    simp only [Operation.apply, Cache.updatePrecision]
    split
    · cases c.containsPrecise old <;> cases c.blockEntry old <;> rfl
    · rfl
  | _ => rfl

theorem Remembers.apply (h : c.Remembers) (operation : Operation σ π) :
    (operation.apply c).Remembers where
  aggressive := operation.aggressive_apply.trans h.aggressive
  unmarked := by
    intro key s hs
    obtain ⟨hans, hmark⟩ := h.answers_before operation hs
    exact hmark.trans (not_containsPrecise_of_lookupSimilar hans)

theorem remembers_after (operations : List (Operation σ π)) : (after operations).Remembers := by
  induction operations using List.reverseRecOn with
  | nil => exact ⟨rfl, fun h => nomatch h⟩
  | append_singleton operations operation ih =>
    rw [after_concat]
    exact ih.apply operation

/-- A similar answer was backed by a stored result when it was first given, for a key that is not
precise, and it has been the answer for the key ever since. -/
theorem lookupSimilar_backed_when_given {operations : List (Operation σ π)}
    (h : ((after operations).lookupSimilar key).1 = some s) :
    (after operations).containsPrecise key = false ∧
      ∃ before since, operations = before ++ since ∧ (after before).Backs key s ∧
        ∀ reached, reached <+: since →
          ((after (before ++ reached)).lookupSimilar key).1 = some s := by
  refine ⟨not_containsPrecise_of_lookupSimilar h, ?_⟩
  induction operations using List.reverseRecOn with
  | nil => cases h
  | append_singleton operations operation ih =>
    rcases (after (operations ++ [operation])).lookupSimilar_cases key with
      hno | ⟨-, t, ⟨hi, hs⟩ | ⟨-, hi, hs⟩⟩
    · rw [hno] at h
      cases h
    · -- A remembered answer was the answer before the last operation already.
      rw [hs] at h
      rw [after_concat, Option.some.inj h] at hi
      have hbefore := ((remembers_after operations).answers_before operation hi).1
      obtain ⟨before, since, rfl, hbacks, hsince⟩ := ih hbefore
      refine ⟨before, since ++ [operation], List.append_assoc .., hbacks, fun reached hr => ?_⟩
      rcases List.prefix_concat_iff.1 hr with rfl | hr
      · rw [← List.append_assoc, hs, h]
      · exact hsince reached hr
    · -- A new answer is backed now.
      rw [hs] at h
      refine ⟨operations ++ [operation], [], (List.append_nil _).symm,
        backs_of_oldestSimilar (Option.some.inj h ▸ hi), fun reached hr => ?_⟩
      rw [List.prefix_nil.1 hr, List.append_nil, hs, h]

def outlived : List (Operation String String) :=
  [.insert ⟨"x=0", "exact", 10⟩ 1, .lookupSimilar ⟨"x=0", "rough", 10⟩,
    .removeEntry ⟨"x=0", "exact", 10⟩]

theorem outlived_backed_when_given :
    ((after outlived).lookupSimilar ⟨"x=0", "rough", 10⟩).1 = some 1 ∧
      (after outlived).containsPrecise ⟨"x=0", "rough", 10⟩ = false ∧
      ∃ before since, outlived = before ++ since ∧ (after before).Backs ⟨"x=0", "rough", 10⟩ 1 ∧
        ∀ reached, reached <+: since →
          ((after (before ++ reached)).lookupSimilar ⟨"x=0", "rough", 10⟩).1 = some 1 :=
  ⟨by decide +kernel, lookupSimilar_backed_when_given (by decide +kernel)⟩

theorem similar_answer_outlives_result :
    ¬ ∀ (operations : List (Operation String String)) (key : CacheKey String String) (s : SetId),
      ((after operations).lookupSimilar key).1 = some s →
        (after operations).containsPrecise key = false ∧
          ∃ other, (after operations).lookup other = some s ∧ other.state = key.state ∧
            other.block = key.block ∧ other.precision ≠ key.precision := by
  intro h
  obtain ⟨-, other, hs, -⟩ := h outlived ⟨"x=0", "rough", 10⟩ 1 (by decide +kernel)
  have hempty : (after outlived).reached = ∅ := by decide +kernel
  rw [lookup, hempty] at hs
  cases hs

end Blockwise.Cache
