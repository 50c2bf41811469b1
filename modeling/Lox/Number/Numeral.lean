import Lox.Number.Basic
import Lox.Number.Decimal

/-!
# Numerals

A numeral is a text for a number: an optional sign, then `inf`, `infinity` or `nan` in any case,
or digits with at most one dot and at least one digit, then an optional exponent. `Number.ofText?`
reads one; a decimal stands for the nearest number, and the written sign is kept on zero.
-/

namespace Lox

/-- What a numeral says after its sign. -/
inductive Numeral where
  | nan
  | infinity
  | decimal (value : Decimal)

namespace Numeral

/-- Digits only, and at least one. -/
def natOfText? (text : List Char) : Option Nat :=
  if text ≠ [] ∧ text.all Char.isDigit then some (Digits.ofDigits text) else none

def intOfText? : List Char → Option Int
  | '-' :: digits => (natOfText? digits).map fun n => -(n : Int)
  | '+' :: digits => (natOfText? digits).map fun n => n
  | digits => (natOfText? digits).map fun n => n

/-- The exponent that follows the digits, zero if nothing does. -/
def exponentOfText? : List Char → Option Int
  | [] => some 0
  | e :: text => if e = 'e' ∨ e = 'E' then intOfText? text else none

/-- The digits after a dot, if there is one, and what follows. -/
def fraction : List Char → List Char × List Char
  | '.' :: text => text.span Char.isDigit
  | text => ([], text)

def decimalOfText? (text : List Char) : Option Decimal :=
  let (whole, rest) := text.span Char.isDigit
  let (part, rest) := fraction rest
  if whole ++ part = [] then none
  else (exponentOfText? rest).map fun e => ⟨Digits.ofDigits (whole ++ part), e - part.length⟩

def ofText? (text : List Char) : Option Numeral :=
  let word := String.ofList (text.map Char.toLower)
  if word = "nan" then some nan
  else if word = "inf" ∨ word = "infinity" then some infinity
  else (decimalOfText? text).map decimal

def toNumber (negative : Bool) : Numeral → Number
  | nan => .nan
  | infinity => .signed negative .infinity
  | decimal d => .signed negative d.nearest

end Numeral

namespace Number

def ofText? : List Char → Option Number
  | '-' :: text => (Numeral.ofText? text).map (Numeral.toNumber true)
  | '+' :: text => (Numeral.ofText? text).map (Numeral.toNumber false)
  | text => (Numeral.ofText? text).map (Numeral.toNumber false)

end Number

end Lox
