import Lox.Diagnostic
import Lox.Number.Numeral
import Lox.Source.Tile

/-!
# Scanning

`Scan.ofSource` lists the tokens of a source, the end of input last, and what in it is no token.
Both come from its tiles in order, with the line that is counted along: blanks, newlines and
comments give nothing, stray characters and an open string give a diagnostic, and every other
tile gives one token whose lexeme is the tile's text. A newline and a string move the line on, and
the end of input is on the line that has been counted when no tile is left.
-/

namespace Lox

namespace Tile

/-- The line counted behind a tile that begins on `line`. In a string the newlines of its body are
counted, closed or not. -/
def endLine (line : Nat) : Tile → Nat
  | newline => line + 1
  | string body | openString body => line + body.count '\n'
  | _ => line

/-- A word is an identifier unless it is reserved. -/
def wordKind (text : String) : Kind := ((Keyword.ofText? text).map Kind.keyword).getD .identifier

def token? (line : Nat) (t : Tile) : Option Token :=
  let lexeme := String.ofList t.text
  match t with
  | string body => some ⟨.string, lexeme, some (.string (String.ofList body)), line⟩
  | number digits => some ⟨.number, lexeme, (Number.ofText? digits).map .number, line⟩
  | word _ => some ⟨wordKind lexeme, lexeme, none, line⟩
  | mark m => some ⟨.mark m, lexeme, none, line⟩
  | _ => none

def diagnostic? (line : Nat) : Tile → Option Diagnostic
  | stray c => some (.unexpectedCharacter c line)
  | openString _ => some (.unterminatedString line)
  | _ => none

/-- Each tile with the line counted behind it. -/
def placed (line : Nat) : List Tile → List (Nat × Tile)
  | [] => []
  | t :: ts => (t.endLine line, t) :: placed (t.endLine line) ts

/-- The line counted behind the last tile. -/
def lastLine (line : Nat) (tiles : List Tile) : Nat := tiles.foldl endLine line

end Tile

structure Scan where
  tokens : List Token
  diagnostics : List Diagnostic

namespace Scan

def ofText (text : List Char) : Scan :=
  let tiles := Tile.all text
  let placed := Tile.placed 1 tiles
  { tokens := (placed.filterMap fun (line, t) => t.token? line) ++
      [Token.eof (Tile.lastLine 1 tiles)]
    diagnostics := placed.filterMap fun (line, t) => t.diagnostic? line }

def ofSource (source : String) : Scan := ofText source.toList

end Scan

end Lox
