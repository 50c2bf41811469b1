import Lox.Number.Digits
import Lox.Number.Magnitude

/-!
# Decimals

A decimal is a coefficient times a power of ten. `nearest` is the magnitude nearest to it. Only
an exponent that can matter is raised to a power: from `10 ^ 400` on every coefficient but zero
is infinite, and a negative exponent large enough to put the value below `2 ^ -1076` gives zero.

`text` writes a decimal in positional notation, whatever its exponent.
-/

namespace Lox

/-- The value `coefficient * 10 ^ exponent`. -/
structure Decimal where
  coefficient : Nat
  exponent : Int
deriving DecidableEq

namespace Decimal

def nearest (d : Decimal) : Magnitude :=
  match d.exponent with
  | .ofNat e =>
    if d.coefficient = 0 then .zero
    else if 400 ≤ e then .infinity
    else .ofRatio (d.coefficient * powTen e) 1
  | .negSucc e =>
    if d.coefficient.log2 + 1077 ≤ 3 * (e + 1) then .zero
    else .ofRatio d.coefficient (powTen (e + 1))

def text (d : Decimal) : List Char :=
  match d.exponent with
  | .ofNat e => Digits.natText (d.coefficient * powTen e)
  | .negSucc e =>
    let places := e + 1
    Digits.natText (d.coefficient / powTen places) ++
      '.' :: Digits.lastDigits places d.coefficient []

end Decimal

end Lox
