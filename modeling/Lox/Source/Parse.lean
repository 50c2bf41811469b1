import Lox.Session
import Lox.Source.Scan

/-!
# Sources

`parseSource` reads the one expression at the start of a source and reports all that is wrong
with the source: first what is no token, then, if the parse fails, its error. A source has a tree
only if nothing was reported.
-/

namespace Lox

/-- Why a source has no tree. -/
inductive SourceError where
  | lexical (count : Nat)
  | parse (error : ParseError)
deriving BEq, DecidableEq

namespace SourceError

def text : SourceError → String
  | lexical count => "Source contains " ++ toString count ++ " lexical error(s)."
  | parse e => e.text

end SourceError

/-- A failed parse outweighs lexical errors. -/
def sourceResult (lexical : Nat) : Except ParseError Expr → Except SourceError Expr
  | .error e => .error (.parse e)
  | .ok tree => if lexical = 0 then .ok tree else .error (.lexical lexical)

def parseTokens (tokens : List Token) : Except ParseError Expr × Session :=
  (Session.start .standard tokens).parse

def parseSource {σ : Type} [Sink σ] (source : String) (sink : σ) : Except SourceError Expr × σ :=
  let scan := Scan.ofSource source
  let (result, session) := parseTokens scan.tokens
  (sourceResult scan.diagnostics.length result,
    Sink.reportAll (Sink.reportAll sink scan.diagnostics) session.reports)

end Lox
