import Blockwise.Exploration

/-!
Counterexample paths: lists of graph nodes from the first node of the program to a target. Several
elements may stand for one node, for instance when a block result is used at two call nodes.

The path to a node climbs the first parents. A node that was expanded from the exit of a block is
preceded by the path through the block, without its first node, for which the call node stands, and
without the exit itself.
-/
namespace Blockwise

/-- A path; its elements are the indices of `nodes`. -/
structure Path where
  nodes : List NodeId
  deriving DecidableEq, Repr

namespace Path

def size (p : Path) : Nat := p.nodes.length

def elements (p : Path) : List PathIndex := List.range p.size

def first (p : Path) : Except Fault PathIndex :=
  if p.nodes.isEmpty then .error (.malformedPath .empty) else .ok 0

def last (p : Path) : Except Fault PathIndex :=
  if p.nodes.isEmpty then .error (.malformedPath .empty) else .ok (p.size - 1)

def position (p : Path) (element : PathIndex) : Option Nat :=
  if element < p.size then some element else none

def reachedNode (p : Path) (element : PathIndex) : Except Fault NodeId :=
  match p.nodes[element]? with
  | some node => .ok node
  | none => .error (.malformedPath (.noReachedNode element))

theorem reachedNode_eq_ok {p : Path} {element : PathIndex} {node : NodeId} :
    p.reachedNode element = .ok node ↔ p.nodes[element]? = some node := by
  unfold reachedNode
  cases p.nodes[element]? <;> simp

/-- A chain that would hold more nodes than are live runs in a cycle. -/
def climb (g : Graph State Tracked) (origin : NodeId) :
    Nat → NodeId → List NodeId → Except Fault (List NodeId)
  | budget, node, below => do
    match (← g.liveNode node).parents.min? with
    | none => return node :: below
    | some parent => match budget with
      | 0 => throw (.malformedPath (.parentCycle origin))
      | budget + 1 => climb g origin budget parent (node :: below)

def ancestors (g : Graph State Tracked) (node : NodeId) : Except Fault (List NodeId) :=
  climb g node (g.liveCount - 1) node []

/-- The depth ends the recursion only when the links run in a cycle. -/
def flatten (c : Context) : Nat → NodeId → Except Halt (List NodeId)
  | 0, _ => .error .outOfFuel
  | depth + 1, node => do
    let chain ← (ancestors c.graph node).mapError .fault
    let parts ← chain.mapM fun n => do
      match c.links.reducedOf n with
      | some exit => return (← flatten c depth exit).tail.dropLast ++ [n]
      | none => return [n]
    return parts.flatten

def toTarget (c : Context) (target : NodeId) : Except Halt Path := do
  return ⟨← flatten c (c.links.exits.size + 1) target⟩

end Path

end Blockwise
