/-!
Precisions say how much an analysis tracks. A refinement replaces parts of a precision by those of
newly found precisions, one increment after the other.
-/
namespace Blockwise

class Precision (π : Type) where
  Component : Type
  /-- `replace old new component` is `old` with the component taken from `new`. -/
  replace : π → π → Component → π

structure Increment (π : Type) [Precision π] where
  precision : π
  component : Precision.Component π

variable {π : Type} [Precision π]

def Increment.applyAll (precision : π) (increments : List (Increment π)) : π :=
  increments.foldl (fun p i => Precision.replace p i.precision i.component) precision

inductive Adjustment (π : Type) [Precision π] where
  | keep
  | refine (increments : List (Increment π))
  | replace (precision : π)

namespace Adjustment

def ofIncrements : List (Increment π) → Adjustment π
  | [] => keep
  | increments => refine increments

def isKeep : Adjustment π → Bool
  | keep => true
  | _ => false

def newPrecision? (old : π) : Adjustment π → Option π
  | keep => none
  | refine increments => some (Increment.applyAll old increments)
  | replace new => some new

end Adjustment

end Blockwise
