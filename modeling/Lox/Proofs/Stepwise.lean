import Lox.Proofs.Reading
import Mathlib.Logic.Relation

/-!
# A parse, change by change

A rule changes the state of a parse in many places before it ends. `Point.step` takes the changes
one at a time: at a point it is known what is to be done next, which rules wait for the tree of
another, the innermost first, and the state. From a rule with nothing waiting the steps lead to
what `Rule.parse` ends with and to the state it leaves (`Rule.Reads.reaches`), and there they end;
so the points on the way are all that a parse goes through.
-/

namespace Lox

/-- A change of the state of a parse. -/
inductive Change where
  | stay
  | take
  | grow
  | shrink (levels : Nat)
  | enter
  | leave
  | report (cause : Cause)

def Change.apply (c : Setting) : Change → ParseState → ParseState
  | stay, s => s
  | take, s => s.advance
  | grow, s => s.grow
  | shrink levels, s => s.shrink levels
  | enter, s => s.enter
  | leave, s => s.leave
  | report cause, s => (s.fail c cause).2

/-- A rule that waits for the tree of another. -/
inductive Waiting where
  /-- A chain, for its first operand. -/
  | chain (level : Level)
  /-- A chain, for the operand behind an operator that is not counted in `folds` yet. -/
  | link (level : Level) (left : Expr) (folds : Nat) (op : Token)
  | unary (op : Token)
  | group

/-- What is to be done next. -/
inductive Task where
  | rule (r : Rule)
  /-- Waiting may begin, if the limits allow it. -/
  | await (w : Waiting)
  /-- A group has its tree and wants its closing bracket. -/
  | close (inner : Expr)
  | result (r : Except ParseError Expr)

namespace Waiting

/-- The rule whose tree is waited for. -/
def rule : Waiting → Rule
  | chain l | link l _ _ _ => l.operand
  | unary _ => .unary
  | group => .expression

/-- The change with which waiting begins. -/
def opening : Waiting → Change
  | chain _ => .stay
  | link .. => .grow
  | unary _ | group => .enter

/-- The change with which waiting ends, well or not. -/
def closing : Waiting → Change
  | chain _ | link .. => .stay
  | unary _ | group => .leave

/-- No room to wait. -/
def isBlocked (c : Setting) (s : ParseState) : Waiting → Bool
  | chain _ => false
  | link .. => s.isTall c
  | unary _ | group => s.isDeep c

/-- What follows on a result. -/
def resume : Waiting → Except ParseError Expr → Task
  | chain l, .ok e => .rule (.link l e 0)
  | link l left folds op, .ok e => .rule (.link l (.binary left op e) (folds + 1))
  | unary op, .ok e => .result (.ok (.unary op e))
  | group, .ok e => .close e
  | _, .error e => .result (.error e)

end Waiting

/-- The token that comes next, if `p` holds of it. -/
def ParseState.front? (p : Token → Prop) [DecidablePred p] (s : ParseState) : Option Token :=
  s.rest.head?.filter (p ·)

namespace ParseState

variable {p : Token → Prop} [DecidablePred p] {s : ParseState} {t : Token} {ts : List Token}

theorem front?_eq_some (hs : s.rest = t :: ts) (ht : p t) : s.front? p = some t := by
  simp [front?, hs, ht]

theorem front?_eq_none (h : s.AtNo p) : s.front? p = none := by
  rcases hs : s.rest with _ | ⟨t, ts⟩
  · simp [front?, hs]
  · have ht := h t (by simp [hs])
    simp [front?, hs, ht]

end ParseState

structure Point where
  task : Task
  waiting : List Waiting
  state : ParseState

namespace Point

/-- An error is reported where it arises, and is the result. -/
def failing (c : Setting) (s : ParseState) (cause : Cause) (ws : List Waiting) :
    Change × Task × List Waiting :=
  (.report cause, .result (.error ⟨cause, s.current c⟩), ws)

/-- The change to be made at a point, and what is to be done and what waits then. -/
def next (c : Setting) : Point → Option (Change × Task × List Waiting)
  | ⟨.rule (.chain l), ws, _⟩ => some (.stay, .await (.chain l), ws)
  | ⟨.rule (.link l left folds), ws, s⟩ =>
    match s.front? (·.kind.level? = some l) with
    | some op => some (.take, .await (.link l left folds op), ws)
    | none => some (.shrink folds, .result (.ok left), ws)
  | ⟨.rule .unary, ws, s⟩ =>
    match s.front? (·.kind.isPrefixOperator) with
    | some op => some (.take, .await (.unary op), ws)
    | none => some (.stay, .rule .primary, ws)
  | ⟨.rule .primary, ws, s⟩ =>
    match s.front? (·.kind = .mark .leftParen), s.rest.head?.bind Token.value? with
    | some _, _ => some (.take, .await .group, ws)
    | none, some v => some (.take, .result (.ok (.literal v)), ws)
    | none, none => some (failing c s .expectExpression ws)
  | ⟨.await w, ws, s⟩ =>
    if w.isBlocked c s then some (failing c s .tooDeeplyNested ws)
    else some (w.opening, .rule w.rule, w :: ws)
  | ⟨.close inner, ws, s⟩ =>
    match s.front? (·.kind = .mark .rightParen) with
    | some _ => some (.take, .result (.ok (.group inner)), ws)
    | none => some (failing c s .expectClosingParen ws)
  | ⟨.result r, w :: ws, _⟩ => some (w.closing, w.resume r, ws)
  | ⟨.result _, [], _⟩ => none

def step (c : Setting) (p : Point) : Option Point :=
  (p.next c).map fun (change, task, waiting) => ⟨task, waiting, change.apply c p.state⟩

/-- Some steps lead from the one point to the other. -/
def Reaches (c : Setting) : Point → Point → Prop :=
  Relation.ReflTransGen fun p q => p.step c = some q

section Next

variable {c : Setting} {s : ParseState} {t : Token} {ts : List Token} {ws : List Waiting}

theorem next_link {l : Level} {left : Expr} {folds : Nat} (hs : s.rest = t :: ts)
    (hl : t.kind.level? = some l) : next c ⟨.rule (.link l left folds), ws, s⟩ =
      some (.take, .await (.link l left folds t), ws) := by
  simp [next, ParseState.front?_eq_some hs, hl]

theorem next_linkEnd {l : Level} {left : Expr} {folds : Nat}
    (hn : s.AtNo (·.kind.level? = some l)) : next c ⟨.rule (.link l left folds), ws, s⟩ =
      some (.shrink folds, .result (.ok left), ws) := by
  simp [next, ParseState.front?_eq_none hn]

theorem next_unary (hs : s.rest = t :: ts) (hp : t.kind.isPrefixOperator) :
    next c ⟨.rule .unary, ws, s⟩ = some (.take, .await (.unary t), ws) := by
  simp [next, ParseState.front?_eq_some hs, hp]

theorem next_plain (hn : s.AtNo (·.kind.isPrefixOperator)) :
    next c ⟨.rule .unary, ws, s⟩ = some (.stay, .rule .primary, ws) := by
  simp [next, ParseState.front?_eq_none hn]

theorem next_group (hs : s.rest = t :: ts) (hk : t.kind = .mark .leftParen) :
    next c ⟨.rule .primary, ws, s⟩ = some (.take, .await .group, ws) := by
  simp [next, ParseState.front?_eq_some hs, hk]

theorem next_literal {v : Value} (hs : s.rest = t :: ts) (hv : t.value? = some v) :
    next c ⟨.rule .primary, ws, s⟩ = some (.take, .result (.ok (.literal v)), ws) := by
  have hn : s.AtNo (·.kind = .mark .leftParen) := by
    rintro u hu hk
    obtain rfl : t = u := by simpa [hs] using hu
    simp [Token.value?, hk] at hv
  simp [next, ParseState.front?_eq_none hn, hs, hv]

theorem next_noOperand (hn : s.AtNo fun t => t.kind = .mark .leftParen ∨ t.value?.isSome) :
    next c ⟨.rule .primary, ws, s⟩ = some (failing c s .expectExpression ws) := by
  have hf : s.AtNo (·.kind = .mark .leftParen) := fun t ht hk => hn t ht (.inl hk)
  have hv : s.rest.head?.bind Token.value? = none := by
    refine Option.bind_eq_none_iff.2 fun t ht => ?_
    simpa using not_or.1 (hn t ht) |>.2
  simp [next, ParseState.front?_eq_none hf, hv]

theorem next_close {inner : Expr} (hs : s.rest = t :: ts) (hk : t.kind = .mark .rightParen) :
    next c ⟨.close inner, ws, s⟩ = some (.take, .result (.ok (.group inner)), ws) := by
  simp [next, ParseState.front?_eq_some hs, hk]

theorem next_open {inner : Expr} (hn : s.AtNo (·.kind = .mark .rightParen)) :
    next c ⟨.close inner, ws, s⟩ = some (failing c s .expectClosingParen ws) := by
  simp [next, ParseState.front?_eq_none hn]

end Next

section Reaches

variable {c : Setting} {p q q' : Point} {s : ParseState} {ws : List Waiting}

theorem Reaches.trans (h : Reaches c p q) (h' : Reaches c q q') : Reaches c p q' :=
  Relation.ReflTransGen.trans h h'

/-- There is one way on from each point, and so a point on the way to an end lies before it. -/
theorem Reaches.onward (h : Reaches c p q) (h' : Reaches c p q') (hend : q'.step c = none) :
    Reaches c q q' := by
  have hunique : Relator.RightUnique fun p q : Point => p.step c = some q :=
    fun _ _ _ hs hs' => Option.some.inj (hs.symm.trans hs')
  rcases Relation.ReflTransGen.total_of_right_unique hunique h h' with h | h
  · exact h
  · rcases Relation.ReflTransGen.cases_head h with rfl | ⟨_, hs, -⟩
    · exact .refl
    · rw [hend] at hs
      cases hs

theorem Reaches.next {change : Change} {task : Task} (hp : p.next c = some (change, task, ws))
    (h : Reaches c ⟨task, ws, change.apply c p.state⟩ q) : Reaches c p q :=
  .head (by rw [step, hp]; rfl) h

theorem reaches_failing {cause : Cause} (hp : p.next c = some (failing c p.state cause ws)) :
    Reaches c p ⟨.result (p.state.fail c cause).1, ws, (p.state.fail c cause).2⟩ :=
  .next hp .refl

/-- What is waited for goes its way, and then the wait is over. -/
theorem Reaches.await {w : Waiting} {o : Except ParseError Expr × ParseState}
    (hw : ¬ w.isBlocked c s) (hr : ∀ ws, Reaches c ⟨.rule w.rule, ws, w.opening.apply c s⟩
      ⟨.result o.1, ws, o.2⟩)
    (h : Reaches c ⟨w.resume o.1, ws, w.closing.apply c o.2⟩ q) :
    Reaches c ⟨.await w, ws, s⟩ q :=
  .next (if_neg hw) ((hr (w :: ws)).trans (.next rfl h))

theorem reaches_blocked {w : Waiting} (hw : w.isBlocked c s) : Reaches c ⟨.await w, ws, s⟩
    ⟨.result (s.fail c .tooDeeplyNested).1, ws, (s.fail c .tooDeeplyNested).2⟩ :=
  reaches_failing (if_pos hw)

end Reaches

end Point

namespace Rule

open Point ParseState

variable {c : Setting} {r : Rule} {s : ParseState} {o : Except ParseError Expr × ParseState}

/-- From a rule the steps lead to what the rule ends with, whatever waits for it. -/
theorem Reads.reaches (h : Reads c r s o) (ws : List Waiting) :
    Reaches c ⟨.rule r, ws, s⟩ ⟨.result o.1, ws, o.2⟩ := by
  -- for any `ws`, since a rule that is waited for has what waits for it in front of them
  induction h generalizing ws with
  | chainFail _ ih => exact .next rfl (.await Bool.false_ne_true ih .refl)
  | chain _ _ ih ih' => exact .next rfl (.await Bool.false_ne_true ih (ih' ws))
  | linkEnd hn => exact .next (next_linkEnd hn) .refl
  | linkTall hs hl ht => exact .next (next_link hs hl) (reaches_blocked ht)
  | linkFail hs hl ht _ ih => exact .next (next_link hs hl) (.await ht ih .refl)
  | link hs hl ht _ _ ih ih' => exact .next (next_link hs hl) (.await ht ih (ih' ws))
  | unaryDeep hs hp hd => exact .next (next_unary hs hp) (reaches_blocked hd)
  | @unary _ _ _ _ r hs hp hd _ ih =>
    refine .next (next_unary hs hp) (.await hd ih ?_)
    cases r <;> exact .refl
  | plain hn _ ih => exact .next (next_plain hn) (ih ws)
  | groupDeep hs hk hd => exact .next (next_group hs hk) (reaches_blocked hd)
  | groupFail hs hk hd _ ih => exact .next (next_group hs hk) (.await hd ih .refl)
  | groupOpen hs hk hd _ hn ih =>
    exact .next (next_group hs hk) (.await hd ih (reaches_failing (next_open hn)))
  | group hs hk hd _ hr hc ih =>
    exact .next (next_group hs hk) (.await hd ih (.next (next_close hr hc) .refl))
  | literal hs hv => exact .next (next_literal hs hv) .refl
  | noOperand hn => exact reaches_failing (next_noOperand hn)

end Rule

end Lox
