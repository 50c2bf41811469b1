/-!
# Kinds of tokens

A mark is an operator or a punctuation sign, and a keyword is a reserved word; each has one
spelling, and both are found again by it. The remaining kinds have many spellings, but for the
end of input, which has none.
-/

namespace Lox

inductive Mark where
  | leftParen | rightParen | leftBrace | rightBrace | comma | dot | minus | plus | semicolon
  | slash | star | bang | bangEqual | equal | equalEqual | greater | greaterEqual | less | lessEqual
deriving DecidableEq

namespace Mark

def text : Mark → String
  | leftParen => "("
  | rightParen => ")"
  | leftBrace => "\x7b"
  | rightBrace => "\x7d"
  | comma => ","
  | dot => "."
  | minus => "-"
  | plus => "+"
  | semicolon => ";"
  | slash => "/"
  | star => "*"
  | bang => "!"
  | bangEqual => "!="
  | equal => "="
  | equalEqual => "=="
  | greater => ">"
  | greaterEqual => ">="
  | less => "<"
  | lessEqual => "<="

def name : Mark → String
  | leftParen => "LEFT_PAREN"
  | rightParen => "RIGHT_PAREN"
  | leftBrace => "LEFT_BRACE"
  | rightBrace => "RIGHT_BRACE"
  | comma => "COMMA"
  | dot => "DOT"
  | minus => "MINUS"
  | plus => "PLUS"
  | semicolon => "SEMICOLON"
  | slash => "SLASH"
  | star => "STAR"
  | bang => "BANG"
  | bangEqual => "BANG_EQUAL"
  | equal => "EQUAL"
  | equalEqual => "EQUAL_EQUAL"
  | greater => "GREATER"
  | greaterEqual => "GREATER_EQUAL"
  | less => "LESS"
  | lessEqual => "LESS_EQUAL"

def all : List Mark :=
  [leftParen, rightParen, leftBrace, rightBrace, comma, dot, minus, plus, semicolon, slash, star,
    bang, bangEqual, equal, equalEqual, greater, greaterEqual, less, lessEqual]

def ofText? (text : String) : Option Mark := all.find? fun m => m.text == text

theorem text_of_ofText? {text : String} {m : Mark} (h : ofText? text = some m) : m.text = text := by
  simpa using List.find?_some h

theorem ofText?_text (m : Mark) : ofText? m.text = some m := by cases m <;> decide

theorem ofText?_eq_some_iff {text : String} {m : Mark} : ofText? text = some m ↔ m.text = text :=
  ⟨text_of_ofText?, fun h => h ▸ ofText?_text m⟩

theorem text_ne_empty (m : Mark) : m.text ≠ "" := by cases m <;> decide

end Mark

inductive Keyword where
  | andWord | classWord | elseWord | falseWord | forWord | funWord | ifWord | nilWord | orWord
  | printWord | returnWord | superWord | thisWord | trueWord | varWord | whileWord
deriving DecidableEq

namespace Keyword

def text : Keyword → String
  | andWord => "and"
  | classWord => "class"
  | elseWord => "else"
  | falseWord => "false"
  | forWord => "for"
  | funWord => "fun"
  | ifWord => "if"
  | nilWord => "nil"
  | orWord => "or"
  | printWord => "print"
  | returnWord => "return"
  | superWord => "super"
  | thisWord => "this"
  | trueWord => "true"
  | varWord => "var"
  | whileWord => "while"

def name (k : Keyword) : String := k.text.map Char.toUpper

def all : List Keyword :=
  [andWord, classWord, elseWord, falseWord, forWord, funWord, ifWord, nilWord, orWord, printWord,
    returnWord, superWord, thisWord, trueWord, varWord, whileWord]

def ofText? (text : String) : Option Keyword := all.find? fun k => k.text == text

theorem text_of_ofText? {text : String} {k : Keyword} (h : ofText? text = some k) :
    k.text = text := by
  simpa using List.find?_some h

theorem ofText?_text (k : Keyword) : ofText? k.text = some k := by cases k <;> decide

theorem ofText?_eq_some_iff {text : String} {k : Keyword} :
    ofText? text = some k ↔ k.text = text :=
  ⟨text_of_ofText?, fun h => h ▸ ofText?_text k⟩

/-- Whether a statement can begin with the word and an expression cannot contain it. -/
def startsStatement : Keyword → Bool
  | classWord | forWord | funWord | ifWord | printWord | returnWord | varWord | whileWord => true
  | _ => false

end Keyword

inductive Kind where
  | mark (m : Mark)
  | keyword (k : Keyword)
  | identifier
  | string
  | number
  | eof
deriving DecidableEq

namespace Kind

def name : Kind → String
  | mark m => m.name
  | keyword k => k.name
  | identifier => "IDENTIFIER"
  | string => "STRING"
  | number => "NUMBER"
  | eof => "EOF"

def startsStatement : Kind → Bool
  | keyword k => k.startsStatement
  | _ => false

end Kind

end Lox
