import Blockwise.Repair.OpenCalls
import Blockwise.Repair.Report

/-!
Removing a subtree from a reached set whose result is cached. The exits found so far are forgotten,
the cache entry follows the precision of the first node, and the callers' nodes that were expanded
from destroyed exits are removed in turn.
-/
namespace Blockwise

abbrev Repairing := EStateM Halt Context

namespace Context

def staleExpansions (c : Context) (entry : NodeId) : Except Fault (List NodeId) := do
  let n ← c.graph.liveNode entry
  return n.children.toList.filter fun child => (c.links.reducedOf child).any c.graph.isDestroyed

def storedKey (c : Context) (outer : NodeId) (set : SetId) (first : NodeId) :
    Except Fault (Option Key) := do
  if set = .topLevel then return none
  let key ← c.reducedFor outer
  let n ← c.graph.liveNode first
  return some { key with precision := n.precision }

def removalAdjustment (c : Context) (key : Option Key) (node : NodeId)
    (increments : List (Increment Tracked)) : Except Fault (Adjustment Tracked) := do
  if increments.isEmpty then return .keep
  let n ← c.graph.liveNode node
  let refined := Increment.applyAll n.precision increments
  match key with
  | none => return .replace refined
  | some key =>
    return .replace (c.reducer.reducePrecision refined (← c.partitioning.block key.block))

end Context

structure StaleWork where
  pending : List SetId
  report : Report

namespace Action

def removeStale (work : StaleWork) (expanded : NodeId) : Action StaleWork := do
  if (← get).graph.isDestroyed expanded then return work
  let owner := (← (← get).graph.liveNode expanded).set
  if owner ≠ .topLevel then
    let key ← (← get).keyOf owner
    modifyCache (·.removeReturnEntry key)
  let _ ← removeSubtree owner expanded .keep
  let { pending, report } := work
  return {
    pending := if owner ∈ pending then pending else owner :: pending
    report := { report with staleExpansions := report.staleExpansions ++ [(owner, expanded)] } }

def removeStaleBelow (work : StaleWork) (entry : NodeId) : Action StaleWork := do
  if (← get).graph.isDestroyed entry then return work
  let stale ← (← get).staleExpansions entry
  stale.foldlM removeStale work

def removeStaleFor (set : SetId) (work : StaleWork) : Action StaleWork := do
  let entries := (← get).links.entriesFor set
  entries.toList.foldlM removeStaleBelow work

/-- A result that holds the new key already is kept, and then the set leaves the cache. -/
def rekey (set : SetId) (first : NodeId) (key : Key) (report : Report) : Action Report := do
  let c ← get
  let n ← c.graph.liveNode first
  let newKey : Key := { key with precision := n.precision }
  if (c.cache.lookup newKey).any (· ≠ set) then
    if c.cache.lookup key = some set then
      modifyCache (·.removeEntry key)
    return report
  match c.cache.updatePrecision key set n.precision with
  | (some moved, cache) =>
    modifyCache fun _ => cache.setBlockEntry moved first
    return { report with rekeyed := report.rekeyed ++ [moved] }
  | (none, _) => return report

def removeFromSet (set : SetId) (first : NodeId) (key : Option Key) (node : NodeId)
    (adjustment : Adjustment Tracked) (report : Report) : Action Report := do
  if let some key := key then
    modifyCache fun cache => (cache.removeReturnEntry key).removeBlockEntry key
    count fun s => { s with recomputes := s.recomputes + 1 }
  let firstChanged ← removeSubtree set node adjustment
  count fun s => { s with pairRemovals := s.pairRemovals + 1 }
  let report := { report with
    invalidated := report.invalidated ++ key.toList
    removals := report.removals ++ [(set, node)] }
  match key with
  | some key => if firstChanged then rekey set first key report else return report
  | none => return report

end Action

/-- Each pending set takes one unit of fuel. -/
def removeStaleExpansions : Nat → StaleWork → Repairing Report
  | _, ⟨[], report⟩ => return report
  | 0, ⟨_ :: _, _⟩ => throw .outOfFuel
  | fuel + 1, ⟨set :: pending, report⟩ => do
    removeStaleExpansions fuel (← Action.removeStaleFor set ⟨pending, report⟩)

def removeCachedSubtree (fuel : Nat) (outer node : NodeId)
    (increments : List (Increment Tracked)) (report : Report) : Repairing Report := do
  let c ← get
  let set ← c.reachedSetFor outer
  match c.nodeIn set node with
  | .error halt => throw halt
  | .ok node =>
    if c.graph.isDestroyed node then
      return { report with skipped := report.skipped + 1 }
    let first := (← c.reachedSet set).first
    let key ← c.storedKey outer set first
    let adjustment ← c.removalAdjustment key node increments
    let report ← Action.removeFromSet set first key node adjustment report
    removeStaleExpansions fuel ⟨[set], report⟩

end Blockwise
