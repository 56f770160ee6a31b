import Blockwise.Data.SortedMap
import Blockwise.Data.SortedSet
import Blockwise.Identifier
import Blockwise.Precision

/-!
Abstract states of the explicit-value analysis: a location, the known values of the tracked
variables, and the return locations of the open calls.
-/
namespace Blockwise

abbrev Valuation := SortedMap Var Int

structure State where
  location : Location
  values : Valuation := ∅
  /-- Where the open calls return to, the innermost call last. -/
  stack : List Location := []
  target : Bool := false
  deriving DecidableEq

def State.value (s : State) (x : Var) : Option Int := s.values.get? x

abbrev Tracked := SortedSet Var

/-- An increment replaces the whole set. -/
instance : Precision Tracked where
  Component := Unit
  replace _ new _ := new

def Tracked.increment (tracked : Tracked) : Increment Tracked := ⟨tracked, ()⟩

end Blockwise
