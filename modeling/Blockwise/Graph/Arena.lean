import Blockwise.Graph.Basic

/-!
The exploration graph as it is stored, with the set of the nodes that were not destroyed beside the
nodes. A change updates the records at both ends of an edge or a cover in place, one after the
other. Only the nodes that an operation is called for are checked: destroying a node uses the
indices that its record lists as they are, and one outside of the arena would end the program.
-/
namespace Blockwise

namespace Node

variable {σ π : Type}

def dropChild (child : NodeId) (n : Node σ π) : Node σ π :=
  { n with children := n.children.erase child }

def dropParent (parent : NodeId) (n : Node σ π) : Node σ π :=
  { n with parents := n.parents.erase parent }

def dropCover (n : Node σ π) : Node σ π := { n with coveredBy := none }

def dropCovered (covered : NodeId) (n : Node σ π) : Node σ π :=
  { n with covers := n.covers.erase covered }

end Node

structure Arena (σ π : Type) where
  nodes : Array (Node σ π) := #[]
  live : IdSet := ∅

namespace Arena

inductive Stop where
  | refused (fault : Fault)
  | outOfRange (id : NodeId)
  deriving DecidableEq

abbrev Updating (σ π : Type) := EStateM Stop (Arena σ π)

variable {σ π : Type}

instance : EmptyCollection (Arena σ π) := ⟨{}⟩

def isDestroyed (a : Arena σ π) (id : NodeId) : Bool := id ∉ a.live

def graph (a : Arena σ π) : Graph σ π := ⟨a.nodes⟩

def node (id : NodeId) : Updating σ π (Node σ π) := do
  match (← get).nodes[id]? with
  | some n => return n
  | none => throw (.refused (.unknownNode id))

def liveNode (id : NodeId) : Updating σ π (Node σ π) := do
  let n ← node id
  if n.destroyed then throw (.refused (.destroyedNode id)) else return n

def update (id : NodeId) (f : Node σ π → Node σ π) : Updating σ π Unit :=
  modify fun a => { a with nodes := a.nodes.modify id f }

def updateLive (id : NodeId) (f : Node σ π → Node σ π) : Updating σ π (Node σ π) := do
  let n ← liveNode id
  update id f
  return n

def updateAt (f : Node σ π → Node σ π) (id : NodeId) : Updating σ π Unit := do
  if id < (← get).nodes.size then update id f else throw (.outOfRange id)

def addNode (state : σ) (precision : π) (set : SetId) : Updating σ π NodeId := do
  let id := (← get).nodes.size
  modify fun a =>
    { nodes := a.nodes.push { id, state, precision, set }, live := a.live.insert id }
  return id

def addEdge (parent child : NodeId) : Updating σ π Unit := do
  let _ ← liveNode child
  let _ ← updateLive parent fun n => { n with children := n.children.insert child }
  let _ ← updateLive child fun n => { n with parents := n.parents.insert parent }

def setPrecision (id : NodeId) (precision : π) : Updating σ π Unit := do
  let _ ← updateLive id fun n => { n with precision }

def cover (id other : NodeId) : Updating σ π Unit := do
  let _ ← liveNode other
  let before ← updateLive id fun n => { n with coveredBy := some other }
  if let some old := before.coveredBy then
    update old (Node.dropCovered id)
  let _ ← updateLive other fun n => { n with covers := n.covers.insert id }

def destroy (id : NodeId) : Updating σ π Unit := do
  let n ← node id
  if n.destroyed then return
  update id Node.bury
  n.parents.toList.forM (updateAt (Node.dropChild id))
  n.children.toList.forM (updateAt (Node.dropParent id))
  n.covers.toList.forM (updateAt Node.dropCover)
  n.coveredBy.toList.forM (updateAt (Node.dropCovered id))
  modify fun a => { a with live := a.live.erase id }

end Arena

inductive GraphChange (σ π : Type) where
  | addNode (state : σ) (precision : π) (set : SetId)
  | addEdge (parent child : NodeId)
  | setPrecision (id : NodeId) (precision : π)
  | cover (id other : NodeId)
  | destroy (id : NodeId)

namespace GraphChange

variable {σ π : Type}

def perform : GraphChange σ π → Arena.Updating σ π Unit
  | addNode state precision set => do let _ ← Arena.addNode state precision set
  | addEdge parent child => Arena.addEdge parent child
  | setPrecision id precision => Arena.setPrecision id precision
  | cover id other => Arena.cover id other
  | destroy id => Arena.destroy id

def apply (g : Graph σ π) : GraphChange σ π → Except Fault (Graph σ π)
  | addNode state precision set => .ok (g.addNode state precision set)
  | addEdge parent child => g.addEdge parent child
  | setPrecision id precision => g.setPrecision id precision
  | cover id other => g.cover id other
  | destroy id => g.destroy id

end GraphChange

end Blockwise
