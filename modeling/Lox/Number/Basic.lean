import Lox.Number.Magnitude

/-!
# Numbers

A number is a binary64 value: a sign and a magnitude, or not a number. `toBits` is its pattern in
the format, and `==` compares values: the two zeros are equal, and `nan` equals itself.
-/

namespace Lox

inductive Number where
  | nan
  | signed (negative : Bool) (magnitude : Magnitude)
deriving DecidableEq

namespace Number

/-- The sign bit's weight. -/
abbrev signWeight : Nat := 0x8000000000000000

def ofBits (bits : UInt64) : Number :=
  let rank := bits.toNat % signWeight
  if h : rank ≤ Magnitude.topRank then signed (signWeight ≤ bits.toNat) ⟨rank, h⟩ else nan

/-- The format has many patterns for `nan`; this one is quiet and without payload. -/
def toBits : Number → UInt64
  | nan => UInt64.ofNat (Magnitude.topRank + binadeSize / 2)
  | signed negative m => UInt64.ofNat (m.rank + if negative then signWeight else 0)

def isNaN : Number → Bool
  | nan => true
  | signed .. => false

instance : BEq Number where
  beq
    | nan, nan => true
    | signed s m, signed t n => m.rank == n.rank && (s == t || m.rank == 0)
    | _, _ => false

end Number

end Lox
