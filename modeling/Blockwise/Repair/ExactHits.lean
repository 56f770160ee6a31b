import Blockwise.Context.Calls
import Blockwise.Repair.OpenCalls
import Blockwise.Repair.Report

/-!
Exact hits. An aggressive cache may have answered a call on the path with a result for another
precision. For each block call from the target on, a result for the refined precision is put into
the cache, and where a call with an exact result contains a call without one, the removal of the
inner call is scheduled.
-/
namespace Blockwise

structure PathRole where
  isCall : Bool
  isReturn : Bool
  deriving DecidableEq, Repr

structure CallFrame where
  call : PathIndex
  exact : Bool
  inexactInside : Bool := false
  /-- The call is also a return of the enclosing block. -/
  closesParent : Bool
  deriving DecidableEq, Repr

namespace Context

def returnsAt (c : Context) (location callNode : Location) : Bool :=
  (c.partitioning.block? callNode).any (·.isReturnNode location)

/-- Classifies the elements of a path. The blocks in `opened`, innermost first, are open before
them. -/
def pathRoles (c : Context) (opened : List Location) : List NodeId → Except Fault (List PathRole)
  | [] => .ok []
  | node :: rest => do
    let location := (← c.graph.node (c.links.mostInner node)).state.location
    let left := opened.dropWhile (c.returnsAt location)
    let isCall := c.partitioning.isCallNode location && left.head? ≠ some location
    let roles ← pathRoles c (if isCall then location :: left else left) rest
    return { isCall, isReturn := left.length < opened.length } :: roles

/-- Leaves the innermost frame, and after each frame that passes the test the next one. Of an exact
call, the first inexact call inside is scheduled for removal, which covers everything after it. -/
def leaveFrames (c : Context) (path : Path) (goOn : CallFrame → Bool) (inexactInside : Bool) :
    List CallFrame → List CallPair → Except Fault (List CallFrame × List CallPair)
  | [], pairs => .ok ([], pairs)
  | [_], pairs => .ok ([], pairs)
  | frame :: parent :: outer, pairs => do
    let found := (inexactInside || frame.inexactInside || !frame.exact) && parent.exact &&
      !parent.inexactInside
    let pairs ← if found then
        pure (schedule pairs (← c.callState path parent.call, ← c.callState path frame.call))
      else pure pairs
    if goOn frame then leaveFrames c path goOn found (parent :: outer) pairs
    else return ({ parent with inexactInside := parent.inexactInside || found } :: outer, pairs)

end Context

structure ExactScan where
  frames : List CallFrame := []
  pairs : List CallPair
  report : Report

namespace Action

def provideExactResult (path : Path) (increments : List (Increment Tracked)) (element : PathIndex)
    (report : Report) : Action (Bool × Report) := do
  let c ← get
  let node ← c.callState path element
  let key ← c.reducedFor node
  let refined := Increment.applyAll (← c.graph.node node).precision increments
  let precision := c.reducer.reducePrecision refined (← c.partitioning.block key.block)
  let used ← c.reachedSet (← c.ownerReachedSet node)
  let usedPrecision := (← c.graph.liveNode used.first).precision
  let newKey : Key := { key with precision }
  let exact : Bool := usedPrecision = precision
  if c.cache.containsPrecise newKey then return (exact, report)
  let _ ← cacheNewSet newKey
  count fun s => { s with recomputes := s.recomputes + 1 }
  return (exact, { report with exactEntries := report.exactEntries ++ [newKey] })

def scanElement (path : Path) (increments : List (Increment Tracked)) (scan : ExactScan) :
    PathRole × PathIndex → Action ExactScan
  | (role, element) => do
    poll
    let { frames, pairs, report } := scan
    if role.isCall then
      let (exact, report) ← provideExactResult path increments element report
      let frame : CallFrame :=
        { call := element, exact, closesParent := !frames.isEmpty && role.isReturn }
      return { frames := frame :: frames, pairs, report }
    else if role.isReturn then
      let (frames, pairs) ← (← get).leaveFrames path (·.closesParent) false frames pairs
      return { frames, pairs, report }
    else return scan

def ensureExactHits (path : Path) (target : PathIndex) (increments : List (Increment Tracked))
    (pairs : List CallPair) (report : Report) : Action (List CallPair × Report) := do
  let roles ← (← get).pathRoles [] path.nodes
  match path.position target with
  | none => throw (.malformedPath (.notOnPath target))
  | some start =>
    let scan ← (roles.zipIdx.drop start).foldlM (scanElement path increments) { pairs, report }
    let (_, pairs) ← (← get).leaveFrames path (fun _ => true) false scan.frames scan.pairs
    return (pairs, scan.report)

end Action

end Blockwise
