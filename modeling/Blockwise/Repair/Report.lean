import Blockwise.Context.Basic

/-!
What a repair did.
-/
namespace Blockwise

/-- Below the first node, the subtree of the second is to be removed. -/
abbrev CallPair := NodeId × NodeId

structure Report where
  relevantCalls : List NodeId := []
  removals : List (SetId × NodeId) := []
  skipped : Nat := 0
  invalidated : List Key := []
  rekeyed : List Key := []
  exactEntries : List Key := []
  staleExpansions : List (SetId × NodeId) := []
  deriving DecidableEq

def schedule (pairs : List CallPair) (pair : CallPair) : List CallPair :=
  if pair ∈ pairs then pairs else pairs ++ [pair]

end Blockwise
