import Blockwise.Value.Reducer

/-!
Reduction and expansion as the two directions of a lens. The part of a state that a block knows is
its location, its target flag and the values of the block's variables. Reduction takes this part out
of a caller's state, and expansion puts an exit of the block in its place. The laws of such a pair
hold with one restriction: the exit must itself be a part that the block knows. An exit with a value
of another variable would overwrite the caller's.
-/
namespace Blockwise

theorem State.ext_value {s t : State} (hlocation : s.location = t.location)
    (hvalue : ∀ x, s.value x = t.value x) (hstack : s.stack = t.stack)
    (htarget : s.target = t.target) : s = t := by
  have hvalues : s.values = t.values := SortedMap.ext hvalue
  cases s
  cases t
  cases hlocation
  cases hvalues
  cases hstack
  cases htarget
  rfl

namespace Reducer

/-- The state has values of the block's variables only, and no stack. -/
structure Inside (r : Reducer) (b : Block) (s : State) : Prop where
  used : ∀ x v, s.value x = some v → x ∈ r.usedIn b
  stack : s.stack = []

variable {r : Reducer} {b : Block} {c d s s' : State} {x : Var}

theorem Inside.value_eq_none (h : r.Inside b s) (hx : x ∉ r.usedIn b) : s.value x = none := by
  cases hv : s.value x with
  | none => rfl
  | some v => exact absurd (h.used x v hv) hx

theorem value_expand_of_mem (hx : x ∈ r.usedIn b) : (r.expand c b s).value x = s.value x := by
  rw [value_expand, if_pos hx, Option.or_none]

theorem value_expand_of_notMem (h : r.Inside b s) (hx : x ∉ r.usedIn b) :
    (r.expand c b s).value x = c.value x := by
  rw [value_expand, if_neg hx, h.value_eq_none hx, Option.none_or]

theorem inside_reduceState (r : Reducer) (b : Block) (c : State) :
    r.Inside b (r.reduceState c b) where
  used := by
    intro x v hx
    rw [value_reduceState] at hx
    by_cases hin : x ∈ r.usedIn b
    · exact hin
    · rw [if_neg hin] at hx
      cases hx
  stack := rfl

theorem inside_iff : r.Inside b s ↔ r.reduceState s b = s := by
  constructor
  · intro h
    refine State.ext_value rfl ?_ h.stack.symm rfl
    intro x
    rw [value_reduceState]
    by_cases hx : x ∈ r.usedIn b
    · rw [if_pos hx]
    · rw [if_neg hx, h.value_eq_none hx]
  · intro h
    rw [← h]
    exact inside_reduceState r b s

instance decidableInside (r : Reducer) (b : Block) (s : State) : Decidable (r.Inside b s) :=
  decidable_of_iff _ inside_iff.symm

/-! ### The laws -/

theorem reduceState_expand (r : Reducer) (b : Block) (c s : State) :
    r.reduceState (r.expand c b s) b = r.reduceState s b := by
  refine State.ext_value rfl ?_ rfl rfl
  intro x
  rw [value_reduceState, value_reduceState]
  by_cases hx : x ∈ r.usedIn b
  · rw [if_pos hx, if_pos hx, value_expand_of_mem hx]
  · rw [if_neg hx, if_neg hx]

theorem expand_reduceState (r : Reducer) (b : Block) (c : State) :
    r.expand c b (r.reduceState c b) = c := by
  refine State.ext_value rfl ?_ rfl rfl
  intro x
  by_cases hx : x ∈ r.usedIn b
  · rw [value_expand_of_mem hx, value_reduceState, if_pos hx]
  · exact value_expand_of_notMem (inside_reduceState r b c) hx

theorem expand_expand (h : r.Inside b s) (h' : r.Inside b s') (c : State) :
    r.expand (r.expand c b s) b s' = r.expand c b s' := by
  refine State.ext_value rfl ?_ rfl rfl
  intro x
  by_cases hx : x ∈ r.usedIn b
  · rw [value_expand_of_mem hx, value_expand_of_mem hx]
  · rw [value_expand_of_notMem h' hx, value_expand_of_notMem h hx, value_expand_of_notMem h' hx]

theorem expand_injective (h : r.Inside b s) (hreduced : r.reduceState d b = r.reduceState c b)
    (hexpand : r.expand c b s = r.expand d b s) : c = d := by
  have hrestore (e : State) : r.expand (r.expand e b s) b (r.reduceState e b) = e := by
    rw [expand_expand h (inside_reduceState r b e), expand_reduceState]
  calc c = r.expand (r.expand c b s) b (r.reduceState c b) := (hrestore c).symm
    _ = r.expand (r.expand d b s) b (r.reduceState d b) := by rw [hexpand, hreduced]
    _ = d := hrestore d

/-- Reduction and expansion are inverse on what the block knows, so callers with one reduced state
may share its exits. -/
theorem reduce_expand_inverse (r : Reducer) (b : Block) (c : State) :
    r.expand c b (r.reduceState c b) = c ∧
    ∀ s, r.Inside b s →
      r.reduceState (r.expand c b s) b = s ∧
      (∀ x, x ∉ r.usedIn b → (r.expand c b s).value x = c.value x) ∧
      ∀ d, r.reduceState d b = r.reduceState c b →
        (r.expand d b s).location = (r.expand c b s).location ∧
        (r.expand d b s).target = (r.expand c b s).target ∧
        (∀ x ∈ r.usedIn b, (r.expand d b s).value x = (r.expand c b s).value x) ∧
        (∀ x, x ∉ r.usedIn b →
          (r.expand c b s).value x = c.value x ∧ (r.expand d b s).value x = d.value x) ∧
        (r.expand c b s).stack = c.stack ∧ (r.expand d b s).stack = d.stack ∧
        (r.expand c b s = r.expand d b s ↔ c = d) := by
  refine ⟨expand_reduceState r b c, ?_⟩
  intro s hs
  refine ⟨?_, fun x hx => value_expand_of_notMem hs hx, ?_⟩
  · rw [reduceState_expand, inside_iff.1 hs]
  · intro d hreduced
    refine ⟨rfl, rfl, ?_, ?_, rfl, rfl, ?_⟩
    · intro x hx
      rw [value_expand_of_mem hx, value_expand_of_mem hx]
    · intro x hx
      exact ⟨value_expand_of_notMem hs hx, value_expand_of_notMem hs hx⟩
    · constructor
      · exact expand_injective hs hreduced
      · intro h
        rw [h]

namespace SharedExit

def reducer : Reducer := .ofList [(10, ["y", "z"])]

def block : Block := .of 10 [11] [12]

def caller : State :=
  { location := 10, values := .ofList [("x", 0), ("y", 1), ("z", 5)], stack := [2] }

def other : State :=
  { location := 10, values := .ofList [("u", 3), ("x", 7), ("y", 1), ("z", 5)], stack := [2, 4] }

def exit : State := { location := 12, values := .ofList [("y", 3)], target := true }

theorem expansions_of_one_exit :
    caller ≠ other ∧ reducer.reduceState other block = reducer.reduceState caller block ∧
    reducer.Inside block exit ∧
    reducer.expand caller block (reducer.reduceState caller block) = caller ∧
    reducer.reduceState (reducer.expand caller block exit) block = exit ∧
    (reducer.expand caller block exit).value "x" = some 0 ∧
    (reducer.expand other block exit).value "x" = some 7 ∧
    (reducer.expand other block exit).value "y" = some 3 ∧
    (reducer.expand other block exit).value "z" = none ∧
    reducer.expand caller block exit ≠ reducer.expand other block exit := by
  have hreduced : reducer.reduceState other block = reducer.reduceState caller block := by
    decide +kernel
  have hinside : reducer.Inside block exit := by decide +kernel
  have hdiffer : caller ≠ other := by decide +kernel
  obtain ⟨hcaller, hexits⟩ := reduce_expand_inverse reducer block caller
  obtain ⟨hexit, hkept, hshared⟩ := hexits exit hinside
  obtain ⟨-, -, hused, hunused, -, -, hsame⟩ := hshared other hreduced
  have hx : "x" ∉ reducer.usedIn block := by decide +kernel
  refine ⟨hdiffer, hreduced, hinside, hcaller, hexit, ?_, ?_, ?_, ?_, ?_⟩
  · rw [hkept "x" hx]
    decide +kernel
  · rw [(hunused "x" hx).2]
    decide +kernel
  · rw [hused "y" (by decide +kernel)]
    decide +kernel
  · rw [hused "z" (by decide +kernel)]
    decide +kernel
  · intro h
    exact hdiffer (hsame.1 h)

end SharedExit

end Reducer

end Blockwise
