import Lox.Token.Basic

/-!
# Diagnostics

What can be wrong with a source: characters and strings that are no tokens, and a token at which
no expression can go on. A sink is anything that diagnostics can be reported to, one after the
other; a list keeps them.
-/

namespace Lox

inductive Cause where
  | expectExpression
  | expectClosingParen
  | tooDeeplyNested
deriving DecidableEq

namespace Cause

def text : Cause → String
  | expectExpression => "Expect expression."
  | expectClosingParen => "Expect ')' after expression."
  | tooDeeplyNested => "Expression nests too deeply."

end Cause

/-- The parser has to stop at `token`. -/
structure ParseError where
  cause : Cause
  token : Token
deriving BEq, DecidableEq

namespace ParseError

def place (e : ParseError) : String :=
  if e.token.isEof then " at end" else " at '" ++ e.token.lexeme ++ "'"

def text (e : ParseError) : String :=
  "[line " ++ toString e.token.line ++ "] Error" ++ e.place ++ ": " ++ e.cause.text

end ParseError

inductive Diagnostic where
  | unexpectedCharacter (character : Char) (line : Nat)
  | unterminatedString (line : Nat)
  | parse (error : ParseError)
deriving BEq, DecidableEq

namespace Diagnostic

def line : Diagnostic → Nat
  | unexpectedCharacter _ line => line
  | unterminatedString line => line
  | parse e => e.token.line

/-- Whether the text alone is at fault, before any grammar. -/
def isLexical : Diagnostic → Bool
  | unexpectedCharacter .. | unterminatedString _ => true
  | parse _ => false

def text : Diagnostic → String
  | unexpectedCharacter c line =>
    "[line " ++ toString line ++ "] Error: Unexpected character: " ++ c.toString
  | unterminatedString line => "[line " ++ toString line ++ "] Error: Unterminated string."
  | parse e => e.text

end Diagnostic

class Sink (σ : Type) where
  report : σ → Diagnostic → σ

namespace Sink

instance : Sink (List Diagnostic) where
  report ds d := ds ++ [d]

def reportAll {σ : Type} [Sink σ] (sink : σ) (ds : List Diagnostic) : σ := ds.foldl report sink

end Sink

end Lox
