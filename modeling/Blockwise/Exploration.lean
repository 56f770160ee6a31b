import Blockwise.Context.Calls
import Blockwise.Halt
import Blockwise.Value.Program

/-!
The exploration: nodes are taken from the waitlist of a reached set and get their successors, until
no node waits. At a call node the result of the block is looked up and, if nodes wait in it,
explored first; then its exits are expanded into the caller. Targets and exits of the block itself
are explored no further.

An exploration need not end, so it runs on fuel. Each step of a waitlist leaves one unit less for
the steps after it and for the exploration of a block in it.
-/
namespace Blockwise

def Graph.findCover (g : Graph State Tracked) (state : State) :
    List NodeId → Except Fault (Option NodeId)
  | [] => .ok none
  | node :: rest => do
    let n ← g.liveNode node
    if n.coveredBy = none ∧ n.state = state then return some node else g.findCover state rest

inductive NodeTask where
  | stop
  | call
  | successors (state : State) (precision : Tracked)

/-- The first node of a block stands at its call node without calling the block again. -/
def Context.task (c : Context) (set : SetId) (node : NodeId) : Except Fault NodeTask := do
  let n ← c.graph.liveNode node
  if n.state.target then
    return .stop
  let r ← c.reachedSet set
  if node = r.first then
    return .successors n.state n.precision
  if set ≠ .topLevel then
    let first ← c.graph.liveNode r.first
    let block ← c.partitioning.block first.state.location
    if block.isReturnNode n.state.location then
      return .stop
  if c.partitioning.isCallNode n.state.location then
    return .call
  return .successors n.state n.precision

namespace Action

def addOrCover (set : SetId) (parent : NodeId) (state : State) : Action Unit := do
  let c ← get
  match ← c.graph.findCover state (← c.reachedSet set).nodes.toList with
  | some cover => let _ ← addCoveredSuccessor parent state cover
  | none => let _ ← addSuccessor parent state

def enterCall (depth : Nat) (callNode : NodeId) : Action SetId := do
  let limit := (← get).options.maxDepth
  if limit ≤ depth then
    throw (.depthLimit limit)
  return (← resolveCall callNode).set

def nextWaiting (set : SetId) : Action (Option NodeId) := do
  poll
  popWaiting set

end Action

structure Abort where
  reason : Halt
  active : List SetId
  deriving DecidableEq, Repr

abbrev Exploring := EStateM Abort Context

namespace Exploring

def during {α : Type} (active : List SetId) (action : Action α) : Exploring α :=
  fun c => match action c with
    | .ok a c => .ok a c
    | .error fault c => .error ⟨.fault fault, active⟩ c

/-- A recursive call into a set that is being explored only expands the exits found so far. -/
def perform (program : Program) (exploreSet : SetId → Exploring Unit) (enclosing : List SetId)
    (set : SetId) (node : NodeId) : NodeTask → Exploring Unit
  | .stop => return
  | .successors state precision =>
    (program.successors state precision).forM fun next =>
      during (set :: enclosing) (Action.addOrCover set node next)
  | .call => do
    let inner ← during (set :: enclosing) (Action.enterCall enclosing.length node)
    if inner ∉ set :: enclosing then
      let r ← during (set :: enclosing) (Action.ask (·.reachedSet inner))
      if r.hasWaiting then exploreSet inner
    let _ ← during (set :: enclosing) (Action.expandBlockExits node inner)

/-- Explores a reached set until none of its nodes waits. The sets in `enclosing` are being explored
already, innermost first. -/
def explore (program : Program) : Nat → List SetId → SetId → Exploring Unit
  | 0, enclosing, set => throw ⟨.outOfFuel, set :: enclosing⟩
  | fuel + 1, enclosing, set => do
    match ← during (set :: enclosing) (Action.nextWaiting set) with
    | none => return
    | some node =>
      let task ← during (set :: enclosing) (Action.ask (·.task set node))
      perform program (explore program fuel (set :: enclosing)) enclosing set node task
      explore program fuel enclosing set

end Exploring

namespace Context

def targets (c : Context) : Except Fault (List NodeId) := do
  let r ← c.topLevel
  c.checkLive r.nodes.toList
  return r.nodes.toList.filter fun node => c.stateAt node (·.target)

end Context

def run (program : Program) (fuel : Nat) : EStateM Halt Context (List NodeId) := do
  (Exploring.explore program fuel [] .topLevel).adaptExcept (·.reason)
  (← get).targets

end Blockwise
