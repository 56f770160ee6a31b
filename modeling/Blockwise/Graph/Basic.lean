import Blockwise.Data.SortedSet
import Blockwise.Fault

/-!
The exploration graph: every abstract state that was produced, in all reached sets, with the edges
and covers between them. Nodes are numbered in order of creation. A destroyed node loses all its
edges and covers and stays behind as a tombstone, so that indices are never reused.
-/
namespace Blockwise

structure Node (σ π : Type) where
  id : NodeId
  state : σ
  precision : π
  set : SetId
  parents : IdSet := ∅
  children : IdSet := ∅
  coveredBy : Option NodeId := none
  covers : IdSet := ∅
  destroyed : Bool := false
  deriving DecidableEq

namespace Node

variable {σ π : Type}

def detach (other : NodeId) (n : Node σ π) : Node σ π :=
  { n with
    parents := n.parents.erase other
    children := n.children.erase other
    coveredBy := if n.coveredBy = some other then none else n.coveredBy
    covers := n.covers.erase other }

def bury (n : Node σ π) : Node σ π :=
  { n with parents := ∅, children := ∅, coveredBy := none, covers := ∅, destroyed := true }

end Node

structure Graph (σ π : Type) where
  nodes : Array (Node σ π) := #[]
  deriving DecidableEq

namespace Graph

variable {σ π : Type}

instance : EmptyCollection (Graph σ π) := ⟨{}⟩

def size (g : Graph σ π) : Nat := g.nodes.size

def node? (g : Graph σ π) (id : NodeId) : Option (Node σ π) := g.nodes[id]?

def node (g : Graph σ π) (id : NodeId) : Except Fault (Node σ π) :=
  match g.node? id with
  | some n => .ok n
  | none => .error (.unknownNode id)

def liveNode (g : Graph σ π) (id : NodeId) : Except Fault (Node σ π) :=
  match g.node? id with
  | some n => if n.destroyed then .error (.destroyedNode id) else .ok n
  | none => .error (.unknownNode id)

/-- Indices that were never handed out count as destroyed. -/
def isDestroyed (g : Graph σ π) (id : NodeId) : Bool :=
  match g.node? id with
  | some n => n.destroyed
  | none => true

def liveIds (g : Graph σ π) : List NodeId :=
  (List.range g.size).filter fun id => !g.isDestroyed id

def liveCount (g : Graph σ π) : Nat := g.nodes.countP fun n => !n.destroyed

def addNode (g : Graph σ π) (state : σ) (precision : π) (set : SetId) : Graph σ π :=
  ⟨g.nodes.push { id := g.size, state, precision, set }⟩

def modify (g : Graph σ π) (id : NodeId) (f : Node σ π → Node σ π) : Graph σ π :=
  ⟨g.nodes.modify id f⟩

def addEdge (g : Graph σ π) (parent child : NodeId) : Except Fault (Graph σ π) := do
  let _ ← g.liveNode child
  let _ ← g.liveNode parent
  return (g.modify parent fun n => { n with children := n.children.insert child }).modify child
    fun n => { n with parents := n.parents.insert parent }

def setPrecision (g : Graph σ π) (id : NodeId) (precision : π) : Except Fault (Graph σ π) := do
  let _ ← g.liveNode id
  return g.modify id fun n => { n with precision }

/-- Lets `other` cover the node, in place of the node that covered it before. -/
def cover (g : Graph σ π) (id other : NodeId) : Except Fault (Graph σ π) := do
  let _ ← g.liveNode other
  let n ← g.liveNode id
  let freed := match n.coveredBy with
    | some old => g.modify old fun c => { c with covers := c.covers.erase id }
    | none => g
  return (freed.modify id fun n => { n with coveredBy := some other }).modify other
    fun c => { c with covers := c.covers.insert id }

def remove (g : Graph σ π) (id : NodeId) : Graph σ π :=
  modify ⟨g.nodes.map (Node.detach id)⟩ id Node.bury

def destroy (g : Graph σ π) (id : NodeId) : Except Fault (Graph σ π) := do
  let n ← g.node id
  return if n.destroyed then g else g.remove id

@[simp] theorem node?_empty (id : NodeId) : (∅ : Graph σ π).node? id = none := rfl

theorem node?_addNode (g : Graph σ π) (s : σ) (p : π) (set : SetId) (id : NodeId) :
    (g.addNode s p set).node? id =
      if id = g.size then some { id, state := s, precision := p, set } else g.node? id := by
  simp only [node?, addNode, size, Array.getElem?_push]
  split <;> simp_all

@[simp] theorem node?_modify (g : Graph σ π) (id id' : NodeId) (f : Node σ π → Node σ π) :
    (g.modify id f).node? id' = if id = id' then (g.node? id').map f else g.node? id' := by
  simp [node?, modify, Array.getElem?_modify]

theorem node?_remove (g : Graph σ π) (id id' : NodeId) :
    (g.remove id).node? id' = (g.node? id').map fun n =>
      if id = id' then n.bury else n.detach id := by
  simp only [remove, node?_modify]
  split
  · simp [node?, Node.bury, Node.detach, Function.comp_def]
  · simp only [node?, Array.getElem?_map]

theorem node_eq_ok_iff {g : Graph σ π} {id : NodeId} {n : Node σ π} :
    g.node id = .ok n ↔ g.node? id = some n := by
  unfold node
  split <;> simp_all

theorem liveNode_eq_ok_iff {g : Graph σ π} {id : NodeId} {n : Node σ π} :
    g.liveNode id = .ok n ↔ g.node? id = some n ∧ n.destroyed = false := by
  unfold liveNode
  split
  · split <;> simp_all <;> grind
  · simp_all

theorem isDestroyed_eq_false_iff {g : Graph σ π} {id : NodeId} :
    g.isDestroyed id = false ↔ ∃ n, g.liveNode id = .ok n := by
  simp only [liveNode_eq_ok_iff, isDestroyed]
  split <;> simp_all

end Graph

end Blockwise
