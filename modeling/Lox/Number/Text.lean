import Lox.Number.Basic
import Lox.Number.Shortest

/-!
# The text of a number

A whole number is written with all its digits and `.0`; any other finite number is the shortest
decimal that reads back as it. Both keep the sign, of zero too, and neither has an exponent.
-/

namespace Lox

namespace Magnitude

def text (m : Magnitude) : List Char :=
  if !m.isFinite then "inf".toList
  else if m.isWhole then Digits.natText (m.units / unitsInOne) ++ ".0".toList
  else (Decimal.shortest m).text

end Magnitude

namespace Number

def text : Number → String
  | nan => "NaN"
  | signed negative m => String.ofList (if negative then '-' :: m.text else m.text)

end Number

end Lox
