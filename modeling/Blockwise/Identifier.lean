/-!
The numbers and names by which the parts of an analysis refer to each other, and the text that
messages print for them.
-/
namespace Blockwise

abbrev NodeId := Nat

abbrev SetId := Nat

abbrev Location := Nat

abbrev PathIndex := Nat

abbrev Var := String

/-- The reached set of the whole program, which no block entry owns. -/
def SetId.topLevel : SetId := 0

def NodeId.text (node : NodeId) : String := "#" ++ toString node

def SetId.text (set : SetId) : String := "ReachedSetId(" ++ toString set ++ ")"

def Location.text (location : Location) : String := "N" ++ toString location

def PathIndex.text (element : PathIndex) : String := "p" ++ toString element

end Blockwise
