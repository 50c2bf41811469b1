import Lox.Grammar.Rule

/-!
# Sessions

A session stands somewhere in a list of tokens, and reads expressions there one by one. The list
ends at its first token for the end of input; one that has none ends on the line of its last
token, or on the first line if it is empty.

`parse` reads one expression. After an error `synchronize` leaves the broken statement: it takes
at least one token and stops after a semicolon, before a word that starts a statement, or at the
end, whichever comes first.
-/

namespace Lox

structure Session where
  setting : Setting
  /-- The tokens before the end of input. -/
  tokens : List Token
  /-- How many of them have been taken. -/
  position : Nat
  reports : List Diagnostic

namespace Session

/-- The token for the end of input. -/
def finalToken (tokens : List Token) : Token :=
  (tokens.find? Token.isEof).getD (Token.eof ((tokens.getLast?.map Token.line).getD 1))

/-- A session at the first token, with nothing reported. -/
def start (limits : Limits) (tokens : List Token) : Session where
  setting := ⟨limits, finalToken tokens⟩
  tokens := tokens.takeWhile (!·.isEof)
  position := 0
  reports := []

def rest (s : Session) : List Token := s.tokens.drop s.position

/-- The token the session stands at. -/
def peek (s : Session) : Token := s.rest.headD s.setting.final

def isAtEnd (s : Session) : Bool := s.peek.isEof

/-- The state in which a parse from here begins. -/
def state (s : Session) : ParseState := ⟨s.rest, 0, 0, s.reports⟩

def parse (s : Session) : Except ParseError Expr × Session :=
  let (result, final) := Rule.parse s.setting .expression s.state
  (result, { s with
    position := s.tokens.length - final.rest.length
    reports := final.reports })

/-- How many tokens follow the token `taken` up to the next statement. -/
def statementRest (taken : Token) : List Token → Nat
  | [] => 0
  | t :: ts =>
    if taken.kind = .mark .semicolon ∨ t.kind.startsStatement then 0 else statementRest t ts + 1

def synchronize (s : Session) : Session :=
  match s.rest with
  | [] => s
  | t :: ts => { s with position := s.position + 1 + statementRest t ts }

end Session

end Lox
