import Blockwise.Value.State

/-!
Programs as control-flow edges, and the successors of a value state along them.
-/
namespace Blockwise

inductive Operation where
  | assign (x : Var) (value : Int)
  | assume (x : Var) (value : Int) (equal : Bool)
  | call (returnTo : Location)
  /-- Passes if the innermost open call returns to where the edge leads. -/
  | return
  | error
  | skip
  deriving DecidableEq

structure Edge where
  source : Location
  operation : Operation
  destination : Location
  deriving DecidableEq

abbrev Program := List Edge

/-- The value of an untracked variable is forgotten when it is assigned, and an unknown value
satisfies every assumption. -/
def Edge.step (edge : Edge) (tracked : Tracked) (s : State) : Option State :=
  let next := { s with location := edge.destination }
  match edge.operation with
  | .assign x v =>
    some { next with values := if x ∈ tracked then s.values.insert x v else s.values.erase x }
  | .assume x v equal =>
    match s.value x with
    | some current => if (current = v) ↔ equal then some next else none
    | none => some next
  | .call returnTo => some { next with stack := s.stack ++ [returnTo] }
  | .return =>
    if s.stack.getLast? = some edge.destination then some { next with stack := s.stack.dropLast }
    else none
  | .error => some { next with target := true }
  | .skip => some next

namespace Program

def edgesFrom (p : Program) (location : Location) : List Edge :=
  p.filter (·.source = location)

def successors (p : Program) (s : State) (tracked : Tracked) : List State :=
  (p.edgesFrom s.location).filterMap fun edge => edge.step tracked s

def advance (p : Program) (tracked : Tracked) (states : List State) : List State :=
  states.flatMap fun s => p.successors s tracked

def round (p : Program) (tracked : Tracked) : Nat → List State → List State
  | 0, states => states
  | n + 1, states => round p tracked n (p.advance tracked states)

def rounds (p : Program) (tracked : Tracked) (n : Nat) (states : List State) : List (List State) :=
  (List.range n).map fun i => p.round tracked (i + 1) states

end Program

end Blockwise
