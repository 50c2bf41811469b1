import Lox.Expr.Basic
import Lox.Number.Numeral

/-!
# Literal operands

The value of a token where an expression wants an operand. A number or a string has its literal;
one that came without is read from its lexeme, a string by what stands between its quotes.
-/

namespace Lox

namespace Token

/-- The text between the first and the last quote, which are two. -/
def unquote? : List Char → Option (List Char)
  | '"' :: text => if text.getLast? = some '"' then some text.dropLast else none
  | _ => none

def lexemeValue? (t : Token) : Option Value :=
  match t.kind with
  | .number => (Number.ofText? t.lexeme.toList).map .number
  | .string => (unquote? t.lexeme.toList).map fun text => .string (String.ofList text)
  | _ => none

def value? (t : Token) : Option Value :=
  match t.kind with
  | .keyword .nilWord => some .nil
  | .keyword .trueWord => some (.bool true)
  | .keyword .falseWord => some (.bool false)
  | .number | .string => (t.literal.map Value.ofLiteral).or t.lexemeValue?
  | _ => none

end Token

end Lox
