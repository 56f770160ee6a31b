import Blockwise.Graph.Subgraph
import Blockwise.Precision
import Blockwise.ReachedSet.Basic

/-!
Removing a subtree from a reached set: a node goes together with all nodes below it and all nodes
that one of those covers, and so on. The surviving parents of what was removed wait again, with an
adjusted precision. Everything to remove is collected and checked before the first change.
-/
namespace Blockwise

structure Region (σ π : Type) where
  graph : Graph σ π
  reached : ReachedSet

structure RemovalPlan where
  removed : IdSet
  frontier : IdSet
  deriving DecidableEq

namespace Region

variable {σ π : Type}

def coveredByAny (g : Graph σ π) (ids : IdSet) : List NodeId :=
  (ids.toList.flatMap fun id => ((g.node? id).elim ∅ (·.covers)).toList).reverse

def collectRemoved (r : Region σ π) : Nat → List NodeId → IdSet → Except Fault IdSet
  | 0, _, removed => .ok removed
  | budget + 1, roots, removed =>
    match roots.dropWhile (· ∈ removed) with
    | [] => .ok removed
    | root :: rest => do
      let below ← r.graph.subgraph root
      match below.toList.find? (· ∉ r.reached) with
      | some foreign => .error (.notInReachedSet foreign r.reached.id)
      | none =>
        collectRemoved r budget (coveredByAny r.graph below ++ rest) (removed.union below)

def frontier (g : Graph σ π) (removed : IdSet) : IdSet :=
  .ofList <| removed.toList.flatMap fun id =>
    (((g.node? id).elim ∅ (·.parents)).diff removed).toList

/-- The first node of a set stays, so the last node goes in its place, if there is another. -/
def removalRoot (r : ReachedSet) (node : NodeId) : Option NodeId :=
  if node = r.first then if r.last = r.first then none else some r.last else some node

def planRemoval (r : Region σ π) (node : NodeId) : Except Fault (Option RemovalPlan) := do
  let _ ← r.graph.liveNode node
  if node ∉ r.reached then
    throw (.notInReachedSet node r.reached.id)
  match removalRoot r.reached node with
  | none => return none
  | some root =>
    let removed ← r.collectRemoved (r.graph.size + 1) [root] ∅
    return some { removed, frontier := frontier r.graph removed }

def reopen [Precision π] (adjustment : Adjustment π) (r : Region σ π) (node : NodeId) :
    Region σ π where
  graph := r.graph.modify node fun n =>
    { n with precision := (adjustment.newPrecision? n.precision).getD n.precision }
  reached := r.reached.reAdd node

def applyRemoval [Precision π] (adjustment : Adjustment π) (plan : RemovalPlan)
    (r : Region σ π) : Region σ π :=
  plan.frontier.toList.foldl (reopen adjustment)
    { graph := plan.removed.toList.foldl Graph.remove r.graph
      reached := r.reached.removeAll plan.removed }

def firstPrecision (r : Region σ π) : Except Fault π := do
  return (← r.graph.liveNode r.reached.first).precision

def removeSubtree [DecidableEq π] [Precision π] (node : NodeId) (adjustment : Adjustment π) :
    EStateM Fault (Region σ π) Bool := do
  match ← (← get).planRemoval node with
  | none => return false
  | some plan =>
    let before ← (← get).firstPrecision
    modify (applyRemoval adjustment plan)
    return (← (← get).firstPrecision) ≠ before

end Region

end Blockwise
