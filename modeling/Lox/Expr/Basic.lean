import Lox.Token.Basic

/-!
# Expressions

The tree of an expression. An operator's node keeps its token, and brackets have a node of their
own. `text` writes a tree in prefix form with brackets around every operator and its operands.
-/

namespace Lox

inductive Value where
  | nil
  | bool (value : Bool)
  | number (value : Number)
  | string (value : String)
deriving BEq, DecidableEq

namespace Value

def ofLiteral : Literal → Value
  | .number n => number n
  | .string s => string s

def text : Value → String
  | nil => "nil"
  | bool b => if b then "true" else "false"
  | number n => n.text
  | string s => s

end Value

inductive Expr where
  | literal (value : Value)
  | unary (operator : Token) (operand : Expr)
  | binary (left : Expr) (operator : Token) (right : Expr)
  | group (inner : Expr)
deriving BEq, DecidableEq

namespace Expr

def text : Expr → String
  | literal v => v.text
  | unary op e => "(" ++ op.lexeme ++ " " ++ e.text ++ ")"
  | binary l op r => "(" ++ op.lexeme ++ " " ++ l.text ++ " " ++ r.text ++ ")"
  | group e => "(group " ++ e.text ++ ")"

/-- The line of the outermost operator that brackets alone enclose. -/
def line? : Expr → Option Nat
  | literal _ => none
  | unary op _ => some op.line
  | binary _ op _ => some op.line
  | group e => e.line?

end Expr

end Lox
