/-!
# Decimal digits

Whole numbers and the digits that write them. `ofDigits` reads digits of any number, leading
zeros included; `lastDigits` writes a fixed number of them, and `natText` writes all there are,
at least one.
-/

namespace Lox.Digits

/-- The value of a digit character. -/
def value (c : Char) : Nat := c.toNat - '0'.toNat

def ofDigits (digits : List Char) : Nat :=
  digits.foldl (fun n c => 10 * n + value c) 0

/-- How many digits a number has, none for zero: the least `k` with `n < 10 ^ k`. -/
def count (n : Nat) : Nat :=
  if n = 0 then 0 else count (n / 10) + 1

/-- Puts the last `width` digits of `n` in front of `tail`. -/
def lastDigits : (width n : Nat) → (tail : List Char) → List Char
  | 0, _, tail => tail
  | width + 1, n, tail => lastDigits width (n / 10) (Nat.digitChar (n % 10) :: tail)

def natText (n : Nat) : List Char := lastDigits (max 1 (count n)) n []

end Lox.Digits
