import Blockwise.Block
import Blockwise.Value.State

/-!
Reduction of value states to the variables that a block uses, and its inverse at the exits of the
block. A reduced state has no stack, so that calls from different depths share one result.
-/
namespace Blockwise

structure Reducer where
  byBlock : Table Location (SortedSet Var)

namespace Reducer

def ofList (vars : List (Location × List Var)) : Reducer :=
  ⟨.ofList (vars.map fun e => (e.1, .ofList e.2))⟩

def usedIn (r : Reducer) (block : Block) : SortedSet Var :=
  (r.byBlock.get? block.callNode).getD ∅

def reduceState (r : Reducer) (s : State) (block : Block) : State :=
  { s with values := s.values.restrict (· ∈ r.usedIn block), stack := [] }

def reducePrecision (r : Reducer) (tracked : Tracked) (block : Block) : Tracked :=
  tracked.filter (· ∈ r.usedIn block)

/-- The caller's view of an exit: the block decides its own variables, the caller the others. -/
def expand (r : Reducer) (caller : State) (block : Block) (exit : State) : State where
  location := exit.location
  values := (caller.values.restrict (· ∉ r.usedIn block)).override exit.values
  stack := caller.stack
  target := exit.target

theorem value_reduceState (r : Reducer) (s : State) (b : Block) (x : Var) :
    (r.reduceState s b).value x = if x ∈ r.usedIn b then s.value x else none := by
  simp [reduceState, State.value]

theorem mem_reducePrecision {r : Reducer} {p : Tracked} {b : Block} {x : Var} :
    x ∈ r.reducePrecision p b ↔ x ∈ p ∧ x ∈ r.usedIn b := by
  simp [reducePrecision]

theorem value_expand (r : Reducer) (caller exit : State) (b : Block) (x : Var) :
    (r.expand caller b exit).value x =
      (exit.value x).or (if x ∈ r.usedIn b then none else caller.value x) := by
  by_cases h : x ∈ r.usedIn b <;> simp [expand, State.value, h]

end Reducer

end Blockwise
