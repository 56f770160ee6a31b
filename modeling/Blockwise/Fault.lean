import Blockwise.Identifier

/-!
Why an operation fails. Every fault but a depth limit and an interruption is an inconsistency: the
analysis contradicts itself and its results cannot be used.
-/
namespace Blockwise

inductive PathDefect where
  | empty
  | noOpenBlock
  | noReachedNode (element : PathIndex)
  | notOnPath (element : PathIndex)
  | unenteredBlock (element : PathIndex)
  | parentCycle (node : NodeId)
  | described (text : String)
  deriving DecidableEq, Repr

def PathDefect.text : PathDefect → String
  | empty => "empty path"
  | noOpenBlock => "no open block"
  | noReachedNode element => element.text ++ " has no reached node"
  | notOnPath element => element.text ++ " is not on the path"
  | unenteredBlock element => element.text ++ " leaves a block that was never entered"
  | parentCycle node => "parents of " ++ node.text ++ " form a cycle"
  | described text => text

inductive Fault where
  | unknownNode (node : NodeId)
  | destroyedNode (node : NodeId)
  | notInReachedSet (node : NodeId) (set : SetId)
  | unknownReachedSet (set : SetId)
  | noBlockAt (location : Location)
  | missingReachedSet (entry : NodeId)
  | keyMismatch (block : Location)
  | malformedPath (defect : PathDefect)
  | depthLimit (limit : Nat)
  | interrupted
  deriving DecidableEq, Repr

namespace Fault

def message : Fault → String
  | unknownNode node => "unknown graph node " ++ node.text
  | destroyedNode node => "graph node " ++ node.text ++ " was already destroyed"
  | notInReachedSet node set =>
    "node " ++ node.text ++ " is not part of reached-set " ++ set.text
  | unknownReachedSet set => "unknown reached-set " ++ set.text
  | noBlockAt location => "no block starts at location " ++ location.text
  | missingReachedSet entry => "no reached-set is registered for block entry " ++ entry.text
  | keyMismatch block =>
    "cache entry for block " ++ block.text ++ " does not match the entry of its reached-set"
  | malformedPath defect => "malformed counterexample path: " ++ defect.text
  | depthLimit limit => "block nesting exceeds the maximum depth of " ++ toString limit
  | interrupted => "analysis interrupted, results are incomplete"

/-- A broken invariant, as opposed to a run that was cut short. -/
def isInconsistency : Fault → Bool
  | depthLimit _ | interrupted => false
  | _ => true

end Fault

instance monadLiftExcept {ε σ : Type} : MonadLift (Except ε) (EStateM ε σ) where
  monadLift
    | .ok a => pure a
    | .error e => throw e

end Blockwise
