import Blockwise.Path

/-!
Which blocks are open at an element of a path. Along the path a block entry opens a call, and a
node closes one call for each link it hangs on: when several blocks are left at once, only their
number matters. The call of the whole program, at the first element, stays open.
-/
namespace Blockwise

namespace Links

/-- Closes one of the calls, innermost first, for each link behind `node`. -/
def closeCalls (l : Links) : List PathIndex → NodeId → Option (List PathIndex)
  | [], node => if (l.reducedOf node).isSome then none else some []
  | call :: outer, node => match l.reducedOf node with
    | some exit => closeCalls l outer exit
    | none => some (call :: outer)

def openCalls (l : Links) :
    List PathIndex → List (NodeId × PathIndex) → Except PathDefect (List PathIndex)
  | opened, [] => .ok opened
  | opened, (node, element) :: rest =>
    match l.closeCalls opened node with
    | none => .error (.unenteredBlock element)
    | some left => openCalls l (if l.isBlockEntry node then element :: left else left) rest

end Links

namespace Context

def relevantCalls (c : Context) (path : Path) (target : PathIndex) :
    Except Fault (List PathIndex) := do
  let root ← path.first
  let calls ← (c.links.openCalls [] (path.nodes.take target).zipIdx).mapError .malformedPath
  return root :: calls.reverse

def reachedState (c : Context) (path : Path) (element : PathIndex) : Except Fault NodeId := do
  return c.links.mostInner (← path.reachedNode element)

theorem reachedState_of_node {c : Context} {path : Path} {element : PathIndex} {node : NodeId}
    (h : path.nodes[element]? = some node) :
    c.reachedState path element = .ok (c.links.mostInner node) := by
  rw [reachedState, Path.reachedNode_eq_ok.2 h]
  rfl

/-- Right behind a block, a call node is an expanded node as well. -/
def callState (c : Context) (path : Path) (element : PathIndex) : Except Fault NodeId := do
  let node ← path.reachedNode element
  return if c.links.isBlockEntry node then node else c.links.mostInner node

theorem callState_of_node {c : Context} {path : Path} {element : PathIndex} {node : NodeId}
    (h : path.nodes[element]? = some node) :
    c.callState path element =
      .ok (if c.links.isBlockEntry node then node else c.links.mostInner node) := by
  rw [callState, Path.reachedNode_eq_ok.2 h]
  rfl

theorem callState_congr {c c' : Context} (h : c'.links = c.links) (path : Path)
    (element : PathIndex) : c'.callState path element = c.callState path element := by
  rw [callState, callState, h]

def openCallNodes (c : Context) (path : Path) (target : PathIndex) :
    Except Fault (List NodeId) := do
  (← c.relevantCalls path target).mapM (c.callState path)

def followInto (c : Context) (set : SetId) (default : NodeId) :
    Nat → NodeId → Except Halt NodeId
  | 0, _ => .error .outOfFuel
  | hops + 1, current => do
    let n ← (c.graph.node current).mapError .fault
    if n.set = set then return current
    match c.links.reducedOf current with
    | some exit => followInto c set default hops exit
    | none => return default

def nodeIn (c : Context) (set : SetId) (node : NodeId) : Except Halt NodeId :=
  c.followInto set node (c.links.exits.size + 1) node

end Context

end Blockwise
