import Blockwise.Text.Numeral

/-!
Time spans and how reports write them: in the largest of the units second, millisecond,
microsecond and nanosecond that the span fills, with an exact decimal fraction.
-/
namespace Blockwise

structure Duration where
  seconds : Nat := 0
  nanos : Nat := 0
  deriving DecidableEq, Repr

namespace Duration

def millis (d : Duration) : Nat := d.seconds * 1000 + d.nanos / 1000000

def fractionText (places : List Char) : String :=
  let digits := (places.reverse.dropWhile (· = '0')).reverse
  if digits.isEmpty then "" else "." ++ String.ofList digits

/-- `amount`, counted in the `10 ^ places`-th part of the unit, written in the unit. -/
def inUnit (amount places : Nat) (unit : String) : String :=
  toString (amount / Nat.pow 10 places) ++ fractionText (Numeral.lastDigits amount places) ++ unit

def text (d : Duration) : String :=
  if 0 < d.seconds then inUnit (d.seconds * 1000000000 + d.nanos) 9 "s"
  else if 1000000 ≤ d.nanos then inUnit d.nanos 6 "ms"
  else if 1000 ≤ d.nanos then inUnit d.nanos 3 "µs"
  else inUnit d.nanos 0 "ns"

end Duration

end Blockwise
