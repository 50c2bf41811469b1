import Lox.Number.Decimal

/-!
# The shortest decimal

`Decimal.shortest m` is a decimal that reads back as the positive finite magnitude `m`, with as
few digits as any that does, and among those of that many digits one nearest to `m`; of two
equally near the larger.

The decimals that read back as `m` are those between the middles to its two neighbours, the
middles included when the rank of `m` is even. The search goes down the decimal places from that
of the first digit. If any multiple of a place reads back, so does one of the two multiples next
to `m`, so looking at these two is enough. At the place of `10 ^ -1075` every magnitude is a
multiple itself, which ends the search.
-/

namespace Lox

/-- A value and the ends of the stretch around it, as numerators of the denominator `scale`;
`closed` says whether the ends belong to the stretch. -/
structure Stretch where
  low : Nat
  value : Nat
  high : Nat
  scale : Nat
  closed : Bool

namespace Stretch

/-- What rounds to a finite magnitude. -/
def around (m : Magnitude) : Stretch where
  low := Magnitude.unitsAt (m.rank - 1) + Magnitude.unitsAt m.rank
  value := 2 * Magnitude.unitsAt m.rank
  high := Magnitude.unitsAt m.rank + Magnitude.unitsAt (m.rank + 1)
  scale := 2 * unitsInOne
  closed := m.rank % 2 == 0

def contains (s : Stretch) (x : Nat) : Bool :=
  if s.closed then s.low ≤ x && x ≤ s.high else s.low < x && x < s.high

/-- The same stretch and a denominator for which `10 ^ exponent` has a whole numerator. -/
def refine (s : Stretch) (exponent : Int) : Stretch :=
  let factor := powTen (-exponent).toNat
  { s with low := s.low * factor, value := s.value * factor, high := s.high * factor
           scale := s.scale * factor }

/-- The numerator of `10 ^ exponent` in the refined stretch. -/
def step (s : Stretch) (exponent : Int) : Nat := s.scale * powTen exponent.toNat

/-- The multiple of `10 ^ exponent` in the stretch that is nearest to the value, by its
coefficient. -/
def multiple? (s : Stretch) (exponent : Int) : Option Nat :=
  let step := s.step exponent
  let s := s.refine exponent
  let below := s.value / step
  match s.contains (below * step), s.contains ((below + 1) * step) with
  | true, true => some (if 2 * s.value < (2 * below + 1) * step then below else below + 1)
  | true, false => some below
  | false, true => some (below + 1)
  | false, false => none

/-- The exponent of the value's first digit. -/
def leading (s : Stretch) : Int :=
  if s.scale ≤ s.value then Digits.count (s.value / s.scale) - 1
  else - Digits.count ((s.scale - 1) / s.value)

end Stretch

namespace Decimal

/-- Writes ten of a place as one of the place above. -/
def carry (coefficient : Nat) (exponent : Int) : Decimal :=
  if coefficient = 10 then ⟨1, exponent + 1⟩ else ⟨coefficient, exponent⟩

/-- Looks for a multiple of a place in the stretch, at this place and at `places` lower ones. -/
def search (s : Stretch) : (places : Nat) → (exponent : Int) → Decimal
  | 0, exponent => ⟨(s.refine exponent).value / s.step exponent, exponent⟩
  | places + 1, exponent =>
    match s.multiple? exponent with
    | some coefficient => carry coefficient exponent
    | none => search s places (exponent - 1)

def shortest (m : Magnitude) : Decimal :=
  let s := Stretch.around m
  search s (s.leading + 1075).toNat s.leading

end Decimal

end Lox
