import Lox.Proofs.Locality
import Lox.Proofs.Trees
import Mathlib.Data.List.TakeWhile

/-!
# Reading by index

A cursor goes over the tokens as they are given. They may have no token for the end of input, or
several, or others behind it. The cursor looks at the token at its index, and past the last token at
one that is made from that (`Tape.final`); it does not step over a token for the end of input, and
nothing else stops it. A parse knows how many tokens are left, which is why its rules end; a cursor
does not, and `none` stands for a reading that goes on for ever.

There is no such reading: from where a parse stands (`Tape.cursor`) a rule reads by index what
`Rule.parse` reads from the tokens before the end of input (`Tape.read_cursor`).
-/

namespace Lox

/-- Tokens as they are given, and the limits of the parses over them. -/
structure Tape where
  limits : Limits
  tokens : List Token

structure Cursor where
  index : Nat
  nesting : Nat
  height : Nat
  reports : List Diagnostic

namespace Cursor

def start : Cursor := ⟨0, 0, 0, []⟩

def grow (k : Cursor) : Cursor := { k with height := k.height + 1 }

def shrink (k : Cursor) (levels : Nat) : Cursor := { k with height := k.height - levels }

def enter (k : Cursor) : Cursor := { k.grow with nesting := k.nesting + 1 }

def leave (k : Cursor) : Cursor := { k.shrink 1 with nesting := k.nesting - 1 }

end Cursor

namespace Tape

section Reading

variable (t : Tape)

/-- What is seen past the last token. -/
def final : Token :=
  match t.tokens.getLast? with
  | some last => if last.isEof then last else Token.eof last.line
  | none => Token.eof 1

/-- The token at the cursor. -/
def peek (k : Cursor) : Token := t.tokens[k.index]?.getD t.final

/-- The token that the cursor has passed last. -/
def previous (k : Cursor) : Token :=
  match k.index with
  | 0 => t.peek k
  | i + 1 => t.tokens[i]?.getD (t.peek k)

def isAtEnd (k : Cursor) : Bool := (t.peek k).isEof

def advance (k : Cursor) : Cursor := if t.isAtEnd k then k else { k with index := k.index + 1 }

/-- Whether a token of such a kind comes next. The end of input is of no kind. -/
def check (p : Kind → Bool) (k : Cursor) : Bool := !t.isAtEnd k && p (t.peek k).kind

def isTall (k : Cursor) : Bool := Limits.reached t.limits.height k.height

def isDeep (k : Cursor) : Bool := Limits.reached t.limits.nesting k.nesting || t.isTall k

def fail (cause : Cause) (k : Cursor) : Except ParseError Expr × Cursor :=
  let e : ParseError := ⟨cause, t.peek k⟩
  (.error e, { k with reports := k.reports ++ [.parse e] })

/-- Reads the longest expression that a rule allows. -/
def read (t : Tape) (r : Rule) (k : Cursor) : Option (Except ParseError Expr × Cursor) :=
  match r with
  | .chain l => do
    match ← t |>.read l.operand k with
    | (.error e, k) => some (.error e, k)
    | (.ok left, k) => t |>.read (.link l left 0) k
  | .link l left folds =>
    if t.check (·.level? = some l) k then
      let k := t.advance k
      let op := t.previous k
      if t.isTall k then some (t.fail .tooDeeplyNested k)
      else do
        match ← t |>.read l.operand k.grow with
        | (.error e, k) => some (.error e, k)
        | (.ok right, k) => t |>.read (.link l (.binary left op right) (folds + 1)) k
    else some (.ok left, k.shrink folds)
  | .unary =>
    if t.check Kind.isPrefixOperator k then
      let k := t.advance k
      let op := t.previous k
      if t.isDeep k then some (t.fail .tooDeeplyNested k)
      else do
        let (right, k) ← t |>.read .unary k.enter
        some (right.map (.unary op), k.leave)
    else t |>.read .primary k
  | .primary =>
    if (t.peek k).kind = .mark .leftParen then
      let k := t.advance k
      if t.isDeep k then some (t.fail .tooDeeplyNested k)
      else do
        match ← t |>.read .expression k.enter with
        | (.error e, k) => some (.error e, k.leave)
        | (.ok inner, k) =>
          let k := k.leave
          if t.check (· = .mark .rightParen) k then some (.ok (.group inner), t.advance k)
          else some (t.fail .expectClosingParen k)
    else
      match (t.peek k).value? with
      | some v => some (.ok (.literal v), t.advance k)
      | none => some (t.fail .expectExpression k)
partial_fixpoint

/-- Goes on to the next statement. -/
def skip (t : Tape) (k : Cursor) : Option Cursor :=
  if t.isAtEnd k then some k
  else if (t.previous k).kind = .mark .semicolon ∨ (t.peek k).kind.startsStatement then some k
  else t |>.skip (t.advance k)
partial_fixpoint

def synchronize (k : Cursor) : Option Cursor := t.skip (t.advance k)

def parse (k : Cursor) : Option (Except ParseError Expr × Cursor) :=
  t.read .expression { k with nesting := 0, height := 0 }

end Reading

section Simulation

open Session (finalToken statementRest)

variable {t : Tape} {s : ParseState} {x : Token} {xs : List Token}

/-- The tokens before the end of input. -/
def before (t : Tape) : List Token := t.tokens.takeWhile (!·.isEof)

/-- The setting of a session over the same tokens. -/
def setting (t : Tape) : Setting := ⟨t.limits, finalToken t.tokens⟩

/-- The cursor that stands where a parse stands. -/
def cursor (t : Tape) (s : ParseState) : Cursor :=
  ⟨t.before.length - s.rest.length, s.nesting, s.height, s.reports⟩

theorem head?_dropWhile_getD (t : Tape) :
    (t.tokens.dropWhile (!·.isEof)).head?.getD t.final = finalToken t.tokens := by
  rw [finalToken, ← List.find?_eq_head?_dropWhile_not]
  rcases hf : t.tokens.find? Token.isEof with _ | u
  -- no token is for the end of input, and so the last one is not
  · rw [Option.getD_none, Option.getD_none, final]
    rcases hl : t.tokens.getLast? with _ | last
    · rfl
    · exact if_neg (List.find?_eq_none.1 hf last (List.mem_of_getLast? hl))
  · rfl

theorem getElem?_cursor (hs : s.rest <:+ t.before) :
    t.tokens[(t.cursor s).index]? = (s.rest ++ t.tokens.dropWhile (!·.isEof)).head? := by
  obtain ⟨taken, htaken⟩ := hs
  have htokens : t.tokens = taken ++ (s.rest ++ t.tokens.dropWhile (!·.isEof)) := by
    rw [← List.append_assoc, htaken, before, List.takeWhile_append_dropWhile]
  have hindex : (t.cursor s).index = taken.length := by
    show t.before.length - s.rest.length = _
    rw [← htaken, List.length_append, Nat.add_sub_cancel]
  generalize s.rest ++ t.tokens.dropWhile (!·.isEof) = ahead at htokens ⊢
  rw [hindex, htokens, List.getElem?_append_right (Nat.le_refl _), Nat.sub_self,
    List.head?_eq_getElem?]

theorem peek_cursor (hs : s.rest <:+ t.before) :
    t.peek (t.cursor s) = s.current t.setting := by
  rw [peek, getElem?_cursor hs, ParseState.current]
  cases s.rest with
  | nil => exact t.head?_dropWhile_getD
  | cons u us => rfl

theorem isAtEnd_cursor (hs : s.rest <:+ t.before) :
    t.isAtEnd (t.cursor s) = s.rest.isEmpty := by
  rw [isAtEnd, peek_cursor hs, ParseState.current]
  rcases hr : s.rest with _ | ⟨u, us⟩
  · exact Session.finalToken_isEof t.tokens
  · have hmem : u ∈ t.before := hs.subset (hr ▸ List.mem_cons_self)
    have hno := List.all_eq_true.1 List.all_takeWhile u hmem
    simpa using hno

theorem check_cursor (hs : s.rest <:+ t.before) (p : Kind → Bool) :
    t.check p (t.cursor s) = s.rest.head?.any (p ·.kind) := by
  rw [check, isAtEnd_cursor hs, peek_cursor hs, ParseState.current]
  cases s.rest <;> simp

theorem advance_cursor (hs : s.rest <:+ t.before) (hr : s.rest = x :: xs) :
    t.advance (t.cursor s) = t.cursor s.advance := by
  have hle := hs.length_le
  rw [advance, isAtEnd_cursor hs, hr, List.isEmpty_cons, if_neg Bool.false_ne_true]
  simp only [cursor, ParseState.rest_advance, hr, List.length_cons, List.tail_cons] at hle ⊢
  congr 1
  omega

theorem previous_cursor (hs : s.rest <:+ t.before) (hr : s.rest = x :: xs) :
    t.previous (t.cursor s.advance) = x := by
  have hle := hs.length_le
  have hget : t.tokens[(t.cursor s).index]? = some x := by rw [getElem?_cursor hs, hr]; rfl
  have hindex : (t.cursor s.advance).index = (t.cursor s).index + 1 := by
    simp only [cursor, ParseState.rest_advance, hr, List.length_cons, List.tail_cons] at hle ⊢
    omega
  simp only [previous, hindex, hget, Option.getD_some]

theorem fail_cursor (hs : s.rest <:+ t.before) (cause : Cause) :
    t.fail cause (t.cursor s) =
      ((s.fail t.setting cause).1, t.cursor (s.fail t.setting cause).2) := by
  rw [fail, peek_cursor hs]
  rfl

@[simp] theorem isTall_cursor : t.isTall (t.cursor s) = s.isTall t.setting := rfl

@[simp] theorem isDeep_cursor : t.isDeep (t.cursor s) = s.isDeep t.setting := rfl

@[simp] theorem grow_cursor : (t.cursor s).grow = t.cursor s.grow := rfl

@[simp] theorem shrink_cursor (levels : Nat) :
    (t.cursor s).shrink levels = t.cursor (s.shrink levels) := rfl

@[simp] theorem enter_cursor : (t.cursor s).enter = t.cursor s.enter := rfl

theorem check_of_atNo (hs : s.rest <:+ t.before) {p : Kind → Bool} (h : s.AtNo (p ·.kind)) :
    ¬ t.check p (t.cursor s) := by
  rw [check_cursor hs]
  intro hp
  obtain ⟨u, hu, hp⟩ := (Option.any_eq_true _ _).1 hp
  exact h u hu hp

theorem check_of_cons (hs : s.rest <:+ t.before) (hr : s.rest = x :: xs) {p : Kind → Bool}
    (h : p x.kind) : t.check p (t.cursor s) := by
  rw [check_cursor hs, hr]
  exact h

theorem peek_of_cons (hs : s.rest <:+ t.before) (hr : s.rest = x :: xs) :
    t.peek (t.cursor s) = x := by
  rw [peek_cursor hs, ParseState.current, hr, List.headD_cons]

theorem peek_of_atNo (hs : s.rest <:+ t.before) {p : Token → Prop} (h : s.AtNo p)
    (heof : ∀ u : Token, u.isEof → ¬ p u) : ¬ p (t.peek (t.cursor s)) := by
  rw [peek_cursor hs, ParseState.current]
  rcases hr : s.rest with _ | ⟨u, us⟩
  · exact heof _ (Session.finalToken_isEof t.tokens)
  · exact h u (by simp [hr])

/-- What a rule reads from the tokens before the end of input, a cursor reads from the tape. -/
theorem read_cursor {r : Rule} {o : Except ParseError Expr × ParseState}
    (h : Rule.Reads t.setting r s o) (hs : s.rest <:+ t.before) :
    t.read r (t.cursor s) = some (o.1, t.cursor o.2) := by
  have tail {s : ParseState} (hs : s.rest <:+ t.before) : s.advance.rest <:+ t.before :=
    (List.tail_suffix _).trans hs
  -- on the ways a rule can go: `read` is opened once in each, and sees by index the token that the
  -- state has in front
  induction h with
  | chainFail _ ih =>
    rw [read, ih hs]
    rfl
  | chain h _ ih ih' =>
    rw [read, ih hs]
    exact ih' (h.suffix.trans hs)
  | linkEnd hn =>
    rw [read, if_neg (check_of_atNo hs (by simpa using hn)), shrink_cursor]
  | linkTall hr hl ht =>
    rw [read, if_pos (check_of_cons hs hr (by simpa using hl))]
    simp only [advance_cursor hs hr, isTall_cursor, if_pos ht]
    rw [fail_cursor (tail hs)]
  | linkFail hr hl ht _ ih =>
    rw [read, if_pos (check_of_cons hs hr (by simpa using hl))]
    simp only [advance_cursor hs hr, isTall_cursor, if_neg ht, grow_cursor, ih (tail hs)]
    rfl
  | link hr hl ht h _ ih ih' =>
    rw [read, if_pos (check_of_cons hs hr (by simpa using hl))]
    simp only [advance_cursor hs hr, previous_cursor hs hr, isTall_cursor, if_neg ht, grow_cursor,
      ih (tail hs)]
    exact ih' (h.suffix.trans (tail hs))
  | unaryDeep hr hp hd =>
    rw [read, if_pos (check_of_cons hs hr hp)]
    simp only [advance_cursor hs hr, isDeep_cursor, if_pos hd]
    rw [fail_cursor (tail hs)]
  | unary hr hp hd _ ih =>
    rw [read, if_pos (check_of_cons hs hr hp)]
    simp only [advance_cursor hs hr, previous_cursor hs hr, isDeep_cursor, if_neg hd, enter_cursor,
      ih (tail hs)]
    rfl
  | plain hn _ ih =>
    rw [read, if_neg (check_of_atNo hs hn), ih hs]
  | groupDeep hr hk hd =>
    rw [read, if_pos (peek_of_cons hs hr ▸ hk)]
    simp only [advance_cursor hs hr, isDeep_cursor, if_pos hd]
    rw [fail_cursor (tail hs)]
  | groupFail hr hk hd _ ih =>
    rw [read, if_pos (peek_of_cons hs hr ▸ hk)]
    simp only [advance_cursor hs hr, isDeep_cursor, if_neg hd, enter_cursor, ih (tail hs)]
    rfl
  | @groupOpen s s₁ _ _ _ hr hk hd h hn ih =>
    have hs₁ : s₁.leave.rest <:+ t.before := h.suffix.trans (tail hs)
    have hc : ¬ t.check (· = .mark .rightParen) (t.cursor s₁.leave) :=
      check_of_atNo hs₁ fun u hu hk => hn u hu (of_decide_eq_true hk)
    rw [read, if_pos (peek_of_cons hs hr ▸ hk)]
    simp only [advance_cursor hs hr, isDeep_cursor, if_neg hd, enter_cursor, ih (tail hs)]
    exact (if_neg hc).trans (congrArg some (fail_cursor hs₁ _))
  | @group s s₁ _ _ _ _ _ hr hk hd h hr₁ hc ih =>
    have hs₁ : s₁.leave.rest <:+ t.before := h.suffix.trans (tail hs)
    have hc : t.check (· = .mark .rightParen) (t.cursor s₁.leave) :=
      check_of_cons hs₁ hr₁ (decide_eq_true hc)
    rw [read, if_pos (peek_of_cons hs hr ▸ hk)]
    simp only [advance_cursor hs hr, isDeep_cursor, if_neg hd, enter_cursor, ih (tail hs)]
    exact (if_pos hc).trans (congrArg (fun k => some (_, k)) (advance_cursor hs₁ hr₁))
  | @literal _ u _ _ hr hv =>
    have hk : u.kind ≠ .mark .leftParen := by
      rintro hk
      simp [Token.value?, hk] at hv
    rw [read, if_neg (peek_of_cons hs hr ▸ hk), peek_of_cons hs hr, hv]
    exact congrArg some (congrArg _ (advance_cursor hs hr))
  | noOperand hn =>
    obtain ⟨hk, hv⟩ := not_or.1 (peek_of_atNo hs hn fun u hu => by
      simp only [Token.isEof, beq_iff_eq] at hu
      simp [Token.value?, hu])
    rw [read, if_neg hk, Option.not_isSome_iff_eq_none.1 hv, fail_cursor hs]

theorem skip_cursor (hs : s.rest <:+ t.before) (hr : s.rest = x :: xs) :
    t.skip (t.cursor s.advance) =
      some (t.cursor { s with rest := xs.drop (statementRest x xs) }) := by
  have hadv : s.advance.rest = xs := by rw [ParseState.rest_advance, hr, List.tail_cons]
  have htail : s.advance.rest <:+ t.before := (List.tail_suffix _).trans hs
  induction xs generalizing s x with
  | nil =>
    rw [skip, if_pos (by rw [isAtEnd_cursor htail, hadv, List.isEmpty_nil])]
    exact congrArg (fun ts => some (t.cursor { s with rest := ts })) hadv
  | cons y ys ih =>
    have hno : ¬ t.isAtEnd (t.cursor s.advance) := by
      rw [isAtEnd_cursor htail, hadv]
      exact Bool.false_ne_true
    rw [skip, if_neg hno, previous_cursor hs hr, peek_of_cons htail hadv, statementRest]
    split_ifs with hstop
    · exact congrArg (fun ts => some (t.cursor { s with rest := ts })) hadv
    · rw [advance_cursor htail hadv, List.drop_succ_cons]
      exact ih htail hadv (by rw [ParseState.rest_advance, hadv, List.tail_cons])
        ((List.tail_suffix _).trans htail)

end Simulation

end Tape

end Lox
