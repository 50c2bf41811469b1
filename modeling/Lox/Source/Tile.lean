import Lox.Token.Kind

/-!
# Tiles

A tile is a piece of source text of one class: blanks, a newline, a comment, a string, a number,
a word, a mark, or a character that belongs to none of them. `Tile.all` cuts a text into tiles,
each as long as its class allows, and `flatMap_text_all` says that the cut loses nothing.

The cut stands for a generated lexer, which goes by the longest match: of all pieces of some class
that begin at a place it takes the longest, and where there is none, a single character. That it
does so is an assumption, which tests bear out and nothing here proves.

A string ends at the next quote, whatever stands before it; one without a next quote is open and
runs to the end of the text. A dot belongs to a number only between digits.
-/

namespace Lox

inductive Tile where
  | blanks (run : List Char)
  | newline
  | comment (body : List Char)
  | string (body : List Char)
  | openString (body : List Char)
  | number (digits : List Char)
  | word (letters : List Char)
  | mark (m : Mark)
  | stray (c : Char)

namespace Tile

def text : Tile → List Char
  | blanks run => run
  | newline => ['\n']
  | comment body => '/' :: '/' :: body
  | string body => '"' :: body ++ ['"']
  | openString body => '"' :: body
  | number digits => digits
  | word letters => letters
  | mark m => m.text.toList
  | stray c => [c]

def isBlank (c : Char) : Bool := c == ' ' || c == '\t' || c == '\r'

def startsWord (c : Char) : Bool := c.isAlpha || c == '_'

def continuesWord (c : Char) : Bool := c.isAlphanum || c == '_'

/-- Cuts a text where a class of characters first ends. -/
def cut (p : Char → Bool) (text : List Char) : List Char × List Char :=
  (text.takeWhile p, text.dropWhile p)

/-- The dot and the digits after it, if the text begins with both, and what follows. -/
def fraction : List Char → List Char × List Char
  | '.' :: d :: rest =>
    if d.isDigit then ('.' :: d :: (cut Char.isDigit rest).1, (cut Char.isDigit rest).2)
    else ([], '.' :: d :: rest)
  | rest => ([], rest)

/-- The string that follows an opening quote. -/
def nextString (text : List Char) : Tile × List Char :=
  match cut (· != '"') text with
  | (body, []) => (openString body, [])
  | (body, _ :: rest) => (string body, rest)

/-- The number whose first digit is given. -/
def nextNumber (d : Char) (text : List Char) : Tile × List Char :=
  let (digits, rest) := cut Char.isDigit text
  let (part, rest) := fraction rest
  (number (d :: digits ++ part), rest)

/-- The mark of two characters, or else of one, that the text begins with. -/
def nextMark (c : Char) (text : List Char) : Tile × List Char :=
  match text.head?.bind fun d => Mark.ofText? (String.ofList [c, d]) with
  | some m => (mark m, text.tail)
  | none =>
    match Mark.ofText? (String.ofList [c]) with
    | some m => (mark m, text)
    | none => (stray c, text)

/-- The first tile of a text that is not empty, and what follows. -/
def next (c : Char) (text : List Char) : Tile × List Char :=
  if isBlank c then
    let (run, rest) := cut isBlank text
    (blanks (c :: run), rest)
  else if c = '\n' then (newline, text)
  else if c = '/' ∧ text.head? = some '/' then
    let (body, rest) := cut (· != '\n') text.tail
    (comment body, rest)
  else if c = '"' then nextString text
  else if c.isDigit then nextNumber c text
  else if startsWord c then
    let (letters, rest) := cut continuesWord text
    (word (c :: letters), rest)
  else nextMark c text

theorem cut_append (p : Char → Bool) (text : List Char) :
    (cut p text).1 ++ (cut p text).2 = text :=
  List.takeWhile_append_dropWhile

theorem fraction_append (text : List Char) : (fraction text).1 ++ (fraction text).2 = text := by
  unfold fraction
  split
  · split
    · simp [cut_append]
    · rfl
  · rfl

theorem text_nextString (text : List Char) :
    (nextString text).1.text ++ (nextString text).2 = '"' :: text := by
  have h := cut_append (· != '"') text
  unfold nextString
  split
  · rename_i body hb
    simp_all [Tile.text]
  · rename_i body q rest hb
    have hq := List.head?_dropWhile_not (· != '"') text
    have hd : text.dropWhile (· != '"') = q :: rest := congrArg Prod.snd hb
    rw [hd] at hq
    rw [hb] at h
    simp at hq
    subst hq
    simpa [Tile.text] using h

theorem text_nextNumber (d : Char) (text : List Char) :
    (nextNumber d text).1.text ++ (nextNumber d text).2 = d :: text := by
  simp only [nextNumber, Tile.text, List.cons_append, List.append_assoc, fraction_append,
    cut_append]

theorem text_nextMark (c : Char) (text : List Char) :
    (nextMark c text).1.text ++ (nextMark c text).2 = c :: text := by
  unfold nextMark
  split
  · rename_i m hm
    obtain ⟨d, hd, hm⟩ := Option.bind_eq_some_iff.1 hm
    have hm := Mark.text_of_ofText? hm
    cases text with
    | nil => simp at hd
    | cons x xs => simp_all [Tile.text]
  · split
    · rename_i m hm
      simp [Tile.text, Mark.text_of_ofText? hm]
    · simp [Tile.text]

theorem text_next (c : Char) (text : List Char) :
    (next c text).1.text ++ (next c text).2 = c :: text := by
  unfold next
  split
  · simp [Tile.text, cut_append]
  split
  · simp_all [Tile.text]
  split
  · rename_i h
    cases text with
    | nil => simp at h
    | cons d rest => simp_all [Tile.text, cut_append]
  split
  · simp_all [text_nextString]
  split
  · exact text_nextNumber c text
  split
  · simp [Tile.text, cut_append]
  · exact text_nextMark c text

theorem text_next_ne_nil (c : Char) (text : List Char) : (next c text).1.text ≠ [] := by
  unfold next nextString nextNumber nextMark
  repeat' split
  all_goals simp [Tile.text, Mark.text_ne_empty]

/-- The tiles of a text. -/
def all : List Char → List Tile
  | [] => []
  | c :: text => (next c text).1 :: all (next c text).2
termination_by text => text.length
decreasing_by
  have h := congrArg List.length (text_next c text)
  have := List.length_pos_iff.2 (text_next_ne_nil c text)
  simp only [List.length_append, List.length_cons] at h ⊢
  omega

theorem flatMap_text_all (text : List Char) : (all text).flatMap Tile.text = text := by
  fun_induction all text with
  | case1 => rfl
  | case2 c text ih => simp [ih, text_next]

end Tile

end Lox
