import Blockwise.Value.Program
import Mathlib.Tactic.ByContra

/-!
Single edges. A step along an edge is one of six moves, each with its guard; what a step keeps is
read off the moves.
-/
namespace Blockwise

variable {edge : Edge} {tracked : Tracked} {s s' : State} {x : Var}

def Operation.variable? : Operation → Option Var
  | .assign x _ | .assume x _ _ => some x
  | .call _ | .return | .error | .skip => none

theorem get?_assigned (values : Valuation) (tracked : Tracked) (x y : Var) (v : Int) :
    (if x ∈ tracked then values.insert x v else values.erase x).get? y =
      if x = y then (if x ∈ tracked then some v else none) else values.get? y := by
  by_cases hxy : x = y
  · subst hxy
    by_cases hx : x ∈ tracked <;> simp [hx]
  · by_cases hx : x ∈ tracked <;> simp [hx, hxy, Ne.symm hxy]

namespace Edge

inductive Moves (edge : Edge) (tracked : Tracked) (s : State) : State → Prop
  | assign {x : Var} {v : Int} (ho : edge.operation = .assign x v) :
    Moves edge tracked s { s with
      location := edge.destination
      values := if x ∈ tracked then s.values.insert x v else s.values.erase x }
  | assume {x : Var} {v : Int} {equal : Bool} (ho : edge.operation = .assume x v equal)
    (hpass : ∀ current, s.value x = some current → (current = v ↔ equal = true)) :
    Moves edge tracked s { s with location := edge.destination }
  | call {returnTo : Location} (ho : edge.operation = .call returnTo) :
    Moves edge tracked s { s with
      location := edge.destination
      stack := s.stack ++ [returnTo] }
  | return (ho : edge.operation = .return) (hlast : s.stack.getLast? = some edge.destination) :
    Moves edge tracked s { s with
      location := edge.destination
      stack := s.stack.dropLast }
  | error (ho : edge.operation = .error) :
    Moves edge tracked s { s with
      location := edge.destination
      target := true }
  | skip (ho : edge.operation = .skip) :
    Moves edge tracked s { s with location := edge.destination }

theorem Moves.step_eq (h : edge.Moves tracked s s') : edge.step tracked s = some s' := by
  cases h with
  | assume ho hpass =>
    simp only [step, ho]
    cases hx : s.value _ with
    | none => rfl
    | some current => simp only [hpass current hx, if_true]
  | «return» ho hlast => simp only [step, ho, hlast, if_true]
  | assign ho | call ho | error ho | skip ho => simp only [step, ho]

theorem moves_of_step (h : edge.step tracked s = some s') : edge.Moves tracked s s' := by
  -- a guard that fails leaves no step, and a move whose guard holds is the step
  have same : ∀ {t}, edge.Moves tracked s t → edge.Moves tracked s s' := by
    intro t ht
    cases h.symm.trans ht.step_eq
    exact ht
  cases ho : edge.operation with
  | assume x v equal =>
    refine same (.assume ho fun current hx => ?_)
    by_contra hno
    simp [step, ho, hx, hno] at h
  | «return» =>
    refine same (.return ho ?_)
    by_contra hno
    simp [step, ho, hno] at h
  | assign x v => exact same (.assign ho)
  | call returnTo => exact same (.call ho)
  | error => exact same (.error ho)
  | skip => exact same (.skip ho)

theorem value_of_step (h : edge.step tracked s = some s')
    (hx : edge.operation.variable? ≠ some x) : s'.value x = s.value x := by
  cases moves_of_step h with
  | @assign y v ho =>
    have hyx : y ≠ x := by
      rintro rfl
      exact hx (by rw [ho]; rfl)
    rw [State.value, get?_assigned, if_neg hyx]
    rfl
  | assume | call | «return» | error | skip => rfl

end Edge

end Blockwise
