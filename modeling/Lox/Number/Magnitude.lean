import Lox.Number.Power

/-!
# Magnitudes

A magnitude is a value of binary64 without its sign: zero, a positive number or infinity. It is
kept as its rank, the number of magnitudes below it, which is also what the low 63 bits of the
format hold. `unitsAt` is the value of a rank as a whole number of units of `2 ^ -1074`, and
`rankAt` the last rank whose value does not exceed a number of units.

`ofRatio` rounds a quotient to the nearest magnitude, a tie to the even rank. Infinity takes part
as if it were `2 ^ 1024`, the value that follows the largest finite one at its spacing: that puts
the boundary of overflow halfway, where the format puts it.
-/

namespace Lox

/-- How many magnitudes there are from one power of two to the next, `2 ^ 52`. -/
abbrev binadeSize : Nat := 0x10000000000000

/-- How many units of `2 ^ -1074` make one. -/
abbrev unitsInOne : Nat := powTwo 1074

namespace Magnitude

/-- The rank of infinity. -/
abbrev topRank : Nat := 2047 * binadeSize

end Magnitude

structure Magnitude where
  rank : Nat
  rank_le : rank ≤ Magnitude.topRank
deriving DecidableEq

namespace Magnitude

/-- The lowest two binades have a spacing of one unit, and each later one twice the spacing of
the one before. -/
def unitsAt (rank : Nat) : Nat :=
  let doublings := rank / binadeSize - 1
  (rank - doublings * binadeSize) * powTwo doublings

def rankAt (units : Nat) : Nat :=
  let doublings := units.log2 - 52
  doublings * binadeSize + units / powTwo doublings

def zero : Magnitude := ⟨0, Nat.zero_le _⟩

def infinity : Magnitude := ⟨topRank, Nat.le_refl _⟩

/-- The magnitude of a rank, infinity for the ranks beyond it. -/
def ofRank (rank : Nat) : Magnitude := ⟨min rank topRank, Nat.min_le_right _ _⟩

def units (m : Magnitude) : Nat := unitsAt m.rank

def isFinite (m : Magnitude) : Bool := m.rank < topRank

/-- Whether the value is a whole number. -/
def isWhole (m : Magnitude) : Bool := m.units % unitsInOne == 0

/-- The magnitude nearest to `num / den`. -/
def ofRatio (num den : Nat) : Magnitude :=
  let units := num * unitsInOne
  let below := rankAt (units / den)
  let middle := (unitsAt below + unitsAt (below + 1)) * den
  if 2 * units < middle ∨ 2 * units = middle ∧ below % 2 = 0 then ofRank below
  else ofRank (below + 1)

end Magnitude

end Lox
