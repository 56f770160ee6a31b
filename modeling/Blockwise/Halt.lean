import Blockwise.Fault

/-!
Computations that need not end run on fuel, and halt with a fault or because the fuel is used up.
Actions that only fail run inside them as they are.
-/
namespace Blockwise

inductive Halt where
  | fault (fault : Fault)
  | outOfFuel
  deriving DecidableEq, Repr

instance monadLiftAction {σ : Type} : MonadLift (EStateM Fault σ) (EStateM Halt σ) where
  monadLift action s := match action s with
    | .ok a s => .ok a s
    | .error fault s => .error (.fault fault) s

instance monadLiftFault {σ : Type} : MonadLift (Except Fault) (EStateM Halt σ) where
  monadLift
    | .ok a => pure a
    | .error fault => throw (.fault fault)

end Blockwise
