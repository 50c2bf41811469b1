import Lox.Grammar.Level
import Lox.Grammar.Operand
import Lox.Grammar.State

/-!
# The rules of the grammar

An expression is a chain of operands joined from the left by the operators of one level, the
loosest first; the operands of a level are the chains of the next, and those of the tightest are
prefix operators before a literal or a group.

`Rule.run` reads the longest expression a rule allows from the front of the tokens. Every rule
leaves no more tokens than it found, and every step from one rule to another either takes a token
or goes to a rule of lower rank, which is why reading ends.
-/

namespace Lox

inductive Rule where
  /-- A chain of a level. -/
  | chain (level : Level)
  /-- What is left of a chain after some operands, which `folds` operators have joined. -/
  | link (level : Level) (left : Expr) (folds : Nat)
  | unary
  | primary

namespace Rule

/-- The rule of a whole expression. -/
def expression : Rule := chain .equality

end Rule

namespace Level

/-- The rule for the operands of a level. -/
def operand : Level → Rule
  | equality => .chain comparison
  | comparison => .chain term
  | term => .chain factor
  | factor => .unary

end Level

namespace Rule

def rank : Rule → Nat
  | link .. => 0
  | primary => 0
  | unary => 1
  | chain .factor => 2
  | chain .term => 3
  | chain .comparison => 4
  | chain .equality => 5

@[simp] theorem rank_link (l : Level) (left : Expr) (folds : Nat) :
    (link l left folds).rank = 0 := rfl

@[simp] theorem rank_unary : unary.rank = 1 := rfl

@[simp] theorem rank_primary : primary.rank = 0 := rfl

@[simp] theorem rank_expression : expression.rank = 5 := rfl

theorem rank_operand_lt (l : Level) : l.operand.rank < (chain l).rank := by cases l <;> decide

theorem rank_le (r : Rule) : r.rank ≤ 5 := by
  rcases r with (_ | _ | _ | _) | _ | _ | _ <;> simp [rank]

theorem rank_chain_pos (l : Level) : 0 < (chain l).rank := by cases l <;> decide

/-- A result, and a state that has no more tokens left than `s`. -/
abbrev Outcome (s : ParseState) :=
  { r : Except ParseError Expr × ParseState // r.2.rest.length ≤ s.rest.length }

/-- Takes the literal that the parse stands at. -/
def takeLiteral (c : Setting) (s : ParseState) : Outcome s :=
  match s.rest.head?.bind Token.value? with
  | some v => ⟨(.ok (.literal v), s.advance), by simp⟩
  | none => ⟨s.fail c .expectExpression, by simp⟩

/-- Takes the bracket that closes a group. -/
def closeGroup (c : Setting) (inner : Expr) (s : ParseState) : Outcome s :=
  if s.rest.head?.any (·.kind = .mark .rightParen) then ⟨(.ok (.group inner), s.advance), by simp⟩
  else ⟨s.fail c .expectClosingParen, by simp⟩

def run (c : Setting) (r : Rule) (s : ParseState) : Outcome s :=
  match r with
  | chain l =>
    match run c l.operand s with
    | ⟨(.error e, s₁), h⟩ => ⟨(.error e, s₁), h⟩
    | ⟨(.ok left, s₁), h⟩ =>
      let o := run c (link l left 0) s₁
      ⟨o.1, Nat.le_trans o.2 h⟩
  | link l left folds =>
    match hs : s.rest with
    | [] => ⟨(.ok left, s.shrink folds), by simp⟩
    | op :: _ =>
      if op.kind.level? = some l then
        if s.advance.isTall c then ⟨s.advance.fail c .tooDeeplyNested, by simp⟩
        else
          match run c l.operand s.advance.grow with
          | ⟨(.error e, s₁), h⟩ => ⟨(.error e, s₁), by simp [hs] at h ⊢; omega⟩
          | ⟨(.ok right, s₁), h⟩ =>
            let o := run c (link l (.binary left op right) (folds + 1)) s₁
            ⟨o.1, by have := o.2; simp [hs] at h this ⊢; omega⟩
      else ⟨(.ok left, s.shrink folds), by simp⟩
  | unary =>
    match hs : s.rest with
    | [] => run c primary s
    | op :: _ =>
      if op.kind.isPrefixOperator then
        if s.advance.isDeep c then ⟨s.advance.fail c .tooDeeplyNested, by simp⟩
        else
          let o := run c unary s.advance.enter
          ⟨(o.1.1.map (.unary op), o.1.2.leave), by have := o.2; simp [hs] at this ⊢; omega⟩
      else run c primary s
  | primary =>
    match hs : s.rest with
    | [] => takeLiteral c s
    | t :: _ =>
      if t.kind = .mark .leftParen then
        if s.advance.isDeep c then ⟨s.advance.fail c .tooDeeplyNested, by simp⟩
        else
          match run c expression s.advance.enter with
          | ⟨(.error e, s₁), h⟩ => ⟨(.error e, s₁.leave), by simp [hs] at h ⊢; omega⟩
          | ⟨(.ok inner, s₁), h⟩ =>
            let o := closeGroup c inner s₁.leave
            ⟨o.1, by have := o.2; simp [hs] at h this ⊢; omega⟩
      else takeLiteral c s
termination_by 8 * s.rest.length + r.rank
decreasing_by
  · have := rank_operand_lt l
    omega
  · have := rank_chain_pos l
    simp only [rank_link] at h ⊢
    omega
  · have := rank_le l.operand
    simp [hs]
    omega
  · simp [hs] at h ⊢
    omega
  · simp
  · simp [hs]
  · simp
  · simp [hs]
    omega

/-- The result of a rule and the state it leaves. -/
def parse (c : Setting) (r : Rule) (s : ParseState) : Except ParseError Expr × ParseState :=
  (run c r s).1

theorem length_rest_parse_le (c : Setting) (r : Rule) (s : ParseState) :
    (parse c r s).2.rest.length ≤ s.rest.length :=
  (run c r s).2

section Equations

variable (c : Setting) (s : ParseState)

theorem parse_chain (l : Level) :
    parse c (chain l) s =
      match parse c l.operand s with
      | (.error e, s₁) => (.error e, s₁)
      | (.ok left, s₁) => parse c (link l left 0) s₁ := by
  simp only [parse]
  rw [run]
  split <;> simp [*]

theorem parse_link (l : Level) (left : Expr) (folds : Nat) :
    parse c (link l left folds) s =
      match s.rest with
      | [] => (.ok left, s.shrink folds)
      | op :: _ =>
        if op.kind.level? = some l then
          if s.advance.isTall c then s.advance.fail c .tooDeeplyNested
          else
            match parse c l.operand s.advance.grow with
            | (.error e, s₁) => (.error e, s₁)
            | (.ok right, s₁) => parse c (link l (.binary left op right) (folds + 1)) s₁
        else (.ok left, s.shrink folds) := by
  simp only [parse]
  rw [run]
  split
  · simp [*]
  · split
    · split
      · simp [*]
      · split <;> simp [*]
    · simp [*]

theorem parse_unary :
    parse c unary s =
      match s.rest with
      | [] => parse c primary s
      | op :: _ =>
        if op.kind.isPrefixOperator then
          if s.advance.isDeep c then s.advance.fail c .tooDeeplyNested
          else
            let (result, s₁) := parse c unary s.advance.enter
            (result.map (.unary op), s₁.leave)
        else parse c primary s := by
  simp only [parse]
  rw [run]
  split
  · simp [*]
  · split
    · split <;> simp [*]
    · simp [*]

theorem parse_primary :
    parse c primary s =
      match s.rest with
      | [] => (takeLiteral c s).1
      | t :: _ =>
        if t.kind = .mark .leftParen then
          if s.advance.isDeep c then s.advance.fail c .tooDeeplyNested
          else
            match parse c expression s.advance.enter with
            | (.error e, s₁) => (.error e, s₁.leave)
            | (.ok inner, s₁) => (closeGroup c inner s₁.leave).1
        else (takeLiteral c s).1 := by
  simp only [parse]
  rw [run]
  split
  · simp [*]
  · split
    · split
      · simp [*]
      · split <;> simp [*]
    · simp [*]

end Equations

end Rule

end Lox
