import Lox.Grammar.Rule

/-!
# The trees of the grammar and their tokens

`Expr.Spells` says which tokens write a tree, in the order in which they stand: one for a literal
and for an operator, two for a group. `Expr.Grammatical` says which trees the grammar has: an
operand never binds more loosely than its place allows, which the `tier` of its outermost operator
tells.

Both speak of trees alone; what the rules do with the tokens comes later.
-/

namespace Lox

namespace Token

/-- A mark as it is read on the first line. -/
def ofMark (m : Mark) : Token := ⟨.mark m, m.text, none, 1⟩

/-- A keyword as it is read on the first line. -/
def ofKeyword (k : Keyword) : Token := ⟨.keyword k, k.text, none, 1⟩

/-- The values that tokens stand for. A number or a string without a literal has its lexeme's. -/
inductive Denotes (t : Token) : Value → Prop
  | nil : t.kind = .keyword .nilWord → Denotes t .nil
  | true : t.kind = .keyword .trueWord → Denotes t (.bool true)
  | false : t.kind = .keyword .falseWord → Denotes t (.bool false)
  | literal {l : Literal} : t.kind = .number ∨ t.kind = .string → t.literal = some l →
      Denotes t (.ofLiteral l)
  | numeral {n : Number} : t.kind = .number → t.literal = none →
      Number.ofText? t.lexeme.toList = some n → Denotes t (.number n)
  | quoted {body : List Char} : t.kind = .string → t.literal = none →
      t.lexeme.toList = '"' :: body ++ ['"'] → Denotes t (.string (String.ofList body))

theorem unquote?_eq_some_iff {text body : List Char} :
    unquote? text = some body ↔ text = '"' :: body ++ ['"'] := by
  constructor
  · intro h
    unfold unquote? at h
    split at h
    · rename_i inner
      split at h
      · rename_i hq
        obtain ⟨before, rfl⟩ := List.getLast?_eq_some_iff.1 hq
        simp only [List.dropLast_concat, Option.some.injEq] at h
        rw [h, List.cons_append]
      · cases h
    · cases h
  · rintro rfl
    simp [unquote?]

theorem value?_eq_some_iff {t : Token} {v : Value} : t.value? = some v ↔ t.Denotes v := by
  constructor
  · intro h
    unfold value? at h
    split at h
    · cases h
      exact .nil ‹_›
    · cases h
      exact .true ‹_›
    · cases h
      exact .false ‹_›
    · rcases hl : t.literal with _ | l <;> rw [hl] at h
      · simp only [lexemeValue?, Option.map_none, Option.none_or, ‹t.kind = .number›] at h
        obtain ⟨n, hn, rfl⟩ := Option.map_eq_some_iff.1 h
        exact .numeral ‹_› hl hn
      · cases h
        exact .literal (.inl ‹_›) hl
    · rcases hl : t.literal with _ | l <;> rw [hl] at h
      · simp only [lexemeValue?, Option.map_none, Option.none_or, ‹t.kind = .string›] at h
        obtain ⟨body, hb, rfl⟩ := Option.map_eq_some_iff.1 h
        exact .quoted ‹_› hl (unquote?_eq_some_iff.1 hb)
      · cases h
        exact .literal (.inr ‹_›) hl
    · cases h
  · intro h
    cases h with
    | nil hk | true hk | false hk => simp only [value?, hk]
    | literal hk hl => rcases hk with hk | hk <;> simp [value?, hk, hl]
    | numeral hk hl hn => simp [value?, lexemeValue?, hk, hl, hn]
    | quoted hk hl hb => simp [value?, lexemeValue?, hk, hl, unquote?_eq_some_iff.2 hb]

theorem Denotes.isOperand {t : Token} {v : Value} (h : t.Denotes v) :
    t.kind = .keyword .nilWord ∨ t.kind = .keyword .trueWord ∨ t.kind = .keyword .falseWord ∨
      t.kind = .number ∨ t.kind = .string := by
  cases h with
  | nil hk | true hk | false hk => simp [hk]
  | literal hk => rcases hk with hk | hk <;> simp [hk]
  | numeral hk | quoted hk => simp [hk]

end Token

namespace Expr

/-- The rank of the tightest rule that reads a tree: the looser its outermost operator binds, the
higher the tier. -/
def tier : Expr → Nat
  | literal _ | group _ => Rule.primary.rank
  | unary .. => Rule.unary.rank
  | binary _ op _ => (op.kind.level?.map fun l => (Rule.chain l).rank).getD 0

/-- A prefix operator does not stand before a binary one; a binary operator has none looser on its
left, and only tighter ones on its right. -/
def Grammatical : Expr → Prop
  | literal _ => True
  | unary op e => op.kind.isPrefixOperator ∧ e.tier ≤ Rule.unary.rank ∧ e.Grammatical
  | binary left op right => ∃ l, op.kind.level? = some l ∧ left.tier ≤ (Rule.chain l).rank ∧
      right.tier < (Rule.chain l).rank ∧ left.Grammatical ∧ right.Grammatical
  | group e => e.Grammatical

/-- The tokens that write a tree. -/
inductive Spells : Expr → List Token → Prop
  | literal {t : Token} {v : Value} : t.Denotes v → Spells (.literal v) [t]
  | unary {op : Token} {e : Expr} {ts : List Token} : Spells e ts → Spells (.unary op e) (op :: ts)
  | binary {left right : Expr} {op : Token} {ls rs : List Token} :
      Spells left ls → Spells right rs → Spells (.binary left op right) (ls ++ op :: rs)
  | group {opening closing : Token} {e : Expr} {ts : List Token} :
      opening.kind = .mark .leftParen → closing.kind = .mark .rightParen → Spells e ts →
      Spells (.group e) (opening :: ts ++ [closing])

theorem tier_le (e : Expr) : e.tier ≤ Rule.expression.rank := by
  cases e with
  | literal | unary | group => simp [tier]
  | binary left op right =>
    rcases h : op.kind.level? with _ | l
    · simp [tier, h]
    · simp [tier, h, Rule.rank_le]

theorem tier_binary {left right : Expr} {op : Token} {l : Level} (h : op.kind.level? = some l) :
    (binary left op right).tier = (Rule.chain l).rank := by
  simp [tier, h]

end Expr

end Lox
