import Blockwise.Data.SortedSet
import Blockwise.Identifier

/-!
A reached set holds the nodes explored in one context, the whole program or one invocation of a
block, and the nodes among them that still wait to be explored. The waitlist is a queue that may
keep entries of nodes that left the set; taking a node skips them.
-/
namespace Blockwise

inductive WaitlistOrder where
  | fifo
  | lifo
  deriving DecidableEq, Repr

structure ReachedSet where
  id : SetId
  first : NodeId
  /-- The node added last among those that are still members. -/
  last : NodeId
  nodes : IdSet
  waitlist : List NodeId
  order : WaitlistOrder
  deriving DecidableEq

namespace ReachedSet

def start (id : SetId) (first : NodeId) (order : WaitlistOrder) : ReachedSet where
  id
  first
  last := first
  nodes := .singleton first
  waitlist := [first]
  order

instance : Membership NodeId ReachedSet := ⟨fun r node => node ∈ r.nodes⟩

instance (node : NodeId) (r : ReachedSet) : Decidable (node ∈ r) :=
  inferInstanceAs (Decidable (node ∈ r.nodes))

@[simp] theorem mem_nodes {node : NodeId} {r : ReachedSet} : node ∈ r.nodes ↔ node ∈ r := Iff.rfl

@[simp] theorem mem_start {node first : NodeId} {id : SetId} {order : WaitlistOrder} :
    node ∈ start id first order ↔ node = first :=
  SortedSet.mem_singleton

def add (node : NodeId) (r : ReachedSet) : ReachedSet :=
  { r with nodes := r.nodes.insert node, waitlist := r.waitlist ++ [node], last := node }

def addWithoutWaiting (node : NodeId) (r : ReachedSet) : ReachedSet :=
  { r with nodes := r.nodes.insert node, last := node }

def reAdd (node : NodeId) (r : ReachedSet) : ReachedSet :=
  if node ∈ r ∧ node ∉ r.waitlist then { r with waitlist := r.waitlist ++ [node] } else r

def hasWaiting (r : ReachedSet) : Bool := r.waitlist.any (· ∈ r)

def pop (r : ReachedSet) : Option NodeId × ReachedSet :=
  match r.order with
  | .fifo =>
    let waiting := r.waitlist.dropWhile (· ∉ r)
    (waiting.head?, { r with waitlist := waiting.tail })
  | .lifo =>
    let waiting := r.waitlist.reverse.dropWhile (· ∉ r)
    (waiting.head?, { r with waitlist := waiting.tail.reverse })

def removeAll (removed : IdSet) (r : ReachedSet) : ReachedSet :=
  let nodes := r.nodes.diff removed
  { r with
    nodes
    waitlist := r.waitlist.filter (· ∉ removed)
    last := if r.last ∈ removed then nodes.max?.getD r.first else r.last }

@[simp] theorem mem_add {node n : NodeId} {r : ReachedSet} : n ∈ r.add node ↔ n = node ∨ n ∈ r :=
  SortedSet.mem_insert

@[simp] theorem mem_addWithoutWaiting {node n : NodeId} {r : ReachedSet} :
    n ∈ r.addWithoutWaiting node ↔ n = node ∨ n ∈ r :=
  SortedSet.mem_insert

@[simp] theorem nodes_reAdd (node : NodeId) (r : ReachedSet) : (r.reAdd node).nodes = r.nodes := by
  unfold reAdd; split <;> rfl

@[simp] theorem nodes_pop (r : ReachedSet) : r.pop.2.nodes = r.nodes := by
  unfold pop; split <;> rfl

@[simp] theorem last_reAdd (node : NodeId) (r : ReachedSet) : (r.reAdd node).last = r.last := by
  unfold reAdd; split <;> rfl

@[simp] theorem last_pop (r : ReachedSet) : r.pop.2.last = r.last := by
  unfold pop; split <;> rfl

@[simp] theorem mem_removeAll {n : NodeId} {removed : IdSet} {r : ReachedSet} :
    n ∈ r.removeAll removed ↔ n ∈ r ∧ n ∉ removed :=
  SortedSet.mem_diff

end ReachedSet

end Blockwise
