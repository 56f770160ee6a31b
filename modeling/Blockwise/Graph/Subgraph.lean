import Blockwise.Graph.Basic

/-!
The nodes below a node. The search marks a node when it takes it from the stack, so it takes at
most one step per node of the graph; the step budget is never what ends it.
-/
namespace Blockwise.Graph

variable {σ π : Type}

def collectBelow (g : Graph σ π) : Nat → List NodeId → IdSet → Except Fault IdSet
  | 0, _, seen => .ok seen
  | budget + 1, stack, seen =>
    match stack.dropWhile (· ∈ seen) with
    | [] => .ok seen
    | id :: rest => do
      let n ← g.liveNode id
      collectBelow g budget (n.children.toList.reverse ++ rest) (seen.insert id)

def subgraph (g : Graph σ π) (root : NodeId) : Except Fault IdSet := do
  let _ ← g.liveNode root
  g.collectBelow (g.size + 1) [root] ∅

end Blockwise.Graph
