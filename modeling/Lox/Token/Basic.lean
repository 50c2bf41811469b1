import Lox.Number.Text
import Lox.Token.Kind

/-!
# Tokens

A token is a kind, the text it was read from, the line it ends on and, for a number or a string,
its literal. As everywhere in the library, `==` compares numbers by value and all else by parts.
-/

namespace Lox

inductive Literal where
  | number (value : Number)
  | string (value : String)
deriving BEq, DecidableEq

namespace Literal

def text : Literal → String
  | number n => n.text
  | string s => s

end Literal

structure Token where
  kind : Kind
  lexeme : String
  literal : Option Literal
  line : Nat
deriving BEq, DecidableEq

namespace Token

/-- The end of input on a line. -/
def eof (line : Nat) : Token := ⟨.eof, "", none, line⟩

def isEof (t : Token) : Bool := t.kind == .eof

/-- A token's line in a listing. -/
def text (t : Token) : String :=
  t.kind.name ++ " " ++ t.lexeme ++ " " ++ (t.literal.map Literal.text).getD "null"

end Token

end Lox
