/-!
Reading and writing of decimal digits.
-/
namespace Blockwise.Numeral

def digit? (c : Char) : Option Nat :=
  if '0' ≤ c ∧ c ≤ '9' then some (c.toNat - '0'.toNat) else none

/-- The number that `digits` continues when `value` was read before it. -/
def readDigits (value : Nat) : List Char → Option Nat
  | [] => some value
  | c :: rest => do readDigits (10 * value + (← digit? c)) rest

def readBelow (bound : Nat) (text : List Char) : Option Nat :=
  let digits := match text with
    | '+' :: rest => rest
    | _ => text
  if digits.isEmpty then none else (readDigits 0 digits).filter (· < bound)

def lastDigits (n : Nat) : Nat → List Char
  | 0 => []
  | width + 1 => Nat.digitChar (n / 10 ^ width % 10) :: lastDigits n width

end Blockwise.Numeral
