import Blockwise.Data.SortedSet
import Blockwise.Data.Table
import Blockwise.Fault

/-!
Blocks are the program regions that are analysed once and reused. A block is named by its call
node, and its call and return nodes belong to it.
-/
namespace Blockwise

structure Block where
  callNode : Location
  returns : SortedSet Location
  nodes : SortedSet Location
  deriving DecidableEq

namespace Block

def of (callNode : Location) (nodes returns : List Location) : Block where
  callNode
  returns := .ofList returns
  nodes := .ofList (callNode :: nodes ++ returns)

def isReturnNode (block : Block) (location : Location) : Bool := location ∈ block.returns

def contains (block : Block) (location : Location) : Bool := location ∈ block.nodes

end Block

structure Partitioning where
  blocks : Table Location Block
  returns : SortedSet Location

namespace Partitioning

/-- Adds the blocks in turn; a later block replaces one with the same call node. -/
def ofList (blocks : List Block) : Partitioning where
  blocks := .ofList (blocks.map fun block => (block.callNode, block))
  returns := .ofList (blocks.flatMap (·.returns.toList))

def isCallNode (p : Partitioning) (location : Location) : Bool := p.blocks.contains location

def isReturnNode (p : Partitioning) (location : Location) : Bool := location ∈ p.returns

def block? (p : Partitioning) (callNode : Location) : Option Block := p.blocks.get? callNode

def block (p : Partitioning) (callNode : Location) : Except Fault Block :=
  match p.block? callNode with
  | some block => .ok block
  | none => .error (.noBlockAt callNode)

theorem block_eq_ok_iff {p : Partitioning} {l : Location} {b : Block} :
    p.block l = .ok b ↔ p.block? l = some b := by
  unfold block
  split <;> simp_all

end Partitioning

end Blockwise
