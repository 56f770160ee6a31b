import Blockwise.Context.Basic

/-!
The consistency check: cache, reached sets, links and graph tell the same story.
-/
namespace Blockwise.Context

def checkMember (r : ReachedSet) (node : NodeId) : Except Fault Unit :=
  if node ∈ r then .ok () else .error (.notInReachedSet node r.id)

def checkEntry (c : Context) (key : Key) (set : SetId) : Except Fault Unit := do
  let r ← c.reachedSet set
  let first ← c.graph.liveNode r.first
  if first.state ≠ key.state ∨ first.precision ≠ key.precision then
    throw (.keyMismatch key.block)
  c.checkLive r.nodes.toList
  ((c.cache.returnEntry key).getD []).forM fun exit => do
    let _ ← c.graph.liveNode exit
    checkMember r exit

/-- A live expanded node comes from a live exit of the block that its call node uses. -/
def checkExpansion (c : Context) (expanded exit : NodeId) : Except Fault Unit := do
  if c.graph.isDestroyed expanded then return
  let _ ← c.graph.liveNode exit
  match (← c.graph.liveNode expanded).parents.min? with
  | none => throw (.missingReachedSet expanded)
  | some call =>
    checkMember (← c.reachedSet (← c.ownerReachedSet call)) exit

def checkConsistency (c : Context) : Except Fault Unit := do
  c.cache.reached.entries.forM fun (key, set) => c.checkEntry key set
  c.checkLive (c.cache.blockEntries.entries.map (·.2))
  c.checkLive (← c.topLevel).nodes.toList
  c.links.exits.entries.forM fun (expanded, exit) => c.checkExpansion expanded exit

end Blockwise.Context
