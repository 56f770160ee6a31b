import Blockwise.Repair.CachedRemoval
import Blockwise.Repair.ExactHits

/-!
Repair of the exploration after a refinement. A target on a counterexample path is removed with
everything explored after it: each block that is open at the target loses the subtree that leads to
it, and the innermost one is explored again with the increments applied.
-/
namespace Blockwise

namespace Context

def refinesAt (c : Context) (innermost : NodeId) (targetParents : IdSet) (inner : NodeId) :
    Except Fault Bool := do
  if inner = innermost then return true
  match c.links.setOfEntry inner with
  | some set => return (← c.reachedSet set).first ∈ targetParents
  | none => return false

/-- Links of destroyed nodes are needed only while repairing. -/
def finishRepair (c : Context) : Context :=
  { c with
    links := c.links.prune c.graph.isDestroyed
    statistics := { c.statistics with repairs := c.statistics.repairs + 1 } }

end Context

def removePair (fuel : Nat) (innermost : NodeId) (targetParents : IdSet)
    (increments : List (Increment Tracked)) (report : Report) (pair : CallPair) :
    Repairing Report := do
  Action.poll
  let refines ← (← get).refinesAt innermost targetParents pair.2
  removeCachedSubtree fuel pair.1 pair.2 (if refines then increments else []) report

def removePathEnd (path : Path) (report : Report) : Action Report := do
  let last ← path.reachedNode (← path.last)
  if (← get).graph.isDestroyed last then return report
  let _ ← Action.removeSubtree .topLevel last .keep
  return { report with removals := report.removals ++ [(.topLevel, last)] }

def removeTarget (fuel : Nat) (path : Path) (target : PathIndex) (targetNode : NodeId)
    (increments : List (Increment Tracked)) : Repairing Report := do
  let c ← get
  let calls ← c.openCallNodes path target
  let pairs := (calls.zip calls.tail).foldl schedule []
  let report : Report := { relevantCalls := calls }
  let (pairs, report) ←
    if c.cache.aggressive then Action.ensureExactHits path target increments pairs report
    else pure (pairs, report)
  match calls.getLast? with
  | none => throw (.fault (.malformedPath .noOpenBlock))
  | some innermost =>
    let targetParents := (← (← get).graph.node targetNode).parents
    let report ← pairs.foldlM (removePair fuel innermost targetParents increments) report
    Action.poll
    let report ← removeCachedSubtree fuel innermost targetNode increments report
    removePathEnd path report

def repairTarget (fuel : Nat) (path : Path) (target : PathIndex)
    (increments : List (Increment Tracked)) : Repairing Report := do
  let c ← get
  let targetNode ← c.reachedState path target
  if c.graph.isDestroyed targetNode then return {}
  removeTarget fuel path target targetNode increments

def repairPath (fuel : Nat) (path : Path) (target : PathIndex)
    (increments : List (Increment Tracked)) : Repairing Report :=
  fun c => match repairTarget fuel path target increments c with
    | .ok report c => .ok report c.finishRepair
    | .error halt c => .error halt c.finishRepair

end Blockwise
