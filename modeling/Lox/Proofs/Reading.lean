import Lox.Grammar.Rule
import Mathlib.Tactic.SplitIfs

/-!
# What one rule does, case by case

`Rule.Reads` lists the ways a rule can go, one constructor each: where it hands over to another
rule, where it takes a token, and the five places where it stops with an error. `reads_iff` says
that these are the ways `Rule.parse` goes and no others, so that what holds of every parse is
proved by going through the list.

The first such result is that an error is reported as it arises and nothing else is
(`Reads.reports_eq`).
-/

namespace Lox

/-- No token that `p` holds of comes next. -/
def ParseState.AtNo (p : Token → Prop) (s : ParseState) : Prop := ∀ t ∈ s.rest.head?, ¬ p t

namespace Rule

open ParseState

/-- What a rule ends with and where, from a state. -/
inductive Reads (c : Setting) : Rule → ParseState → Except ParseError Expr × ParseState → Prop
  | chainFail {l : Level} {s s₁ : ParseState} {e : ParseError} :
      Reads c l.operand s (.error e, s₁) → Reads c (chain l) s (.error e, s₁)
  | chain {l : Level} {s s₁ : ParseState} {left : Expr} {o : Except ParseError Expr × ParseState} :
      Reads c l.operand s (.ok left, s₁) → Reads c (link l left 0) s₁ o → Reads c (chain l) s o
  | linkEnd {l : Level} {left : Expr} {folds : Nat} {s : ParseState} :
      s.AtNo (·.kind.level? = some l) → Reads c (link l left folds) s (.ok left, s.shrink folds)
  | linkTall {l : Level} {left : Expr} {folds : Nat} {s : ParseState} {op : Token}
      {ts : List Token} : s.rest = op :: ts → op.kind.level? = some l → s.advance.isTall c →
      Reads c (link l left folds) s (s.advance.fail c .tooDeeplyNested)
  | linkFail {l : Level} {left : Expr} {folds : Nat} {s s₁ : ParseState} {op : Token}
      {ts : List Token} {e : ParseError} : s.rest = op :: ts → op.kind.level? = some l →
      ¬ s.advance.isTall c → Reads c l.operand s.advance.grow (.error e, s₁) →
      Reads c (link l left folds) s (.error e, s₁)
  | link {l : Level} {left right : Expr} {folds : Nat} {s s₁ : ParseState} {op : Token}
      {ts : List Token} {o : Except ParseError Expr × ParseState} : s.rest = op :: ts →
      op.kind.level? = some l → ¬ s.advance.isTall c →
      Reads c l.operand s.advance.grow (.ok right, s₁) →
      Reads c (link l (.binary left op right) (folds + 1)) s₁ o → Reads c (link l left folds) s o
  | unaryDeep {s : ParseState} {op : Token} {ts : List Token} : s.rest = op :: ts →
      op.kind.isPrefixOperator → s.advance.isDeep c →
      Reads c unary s (s.advance.fail c .tooDeeplyNested)
  | unary {s s₁ : ParseState} {op : Token} {ts : List Token} {r : Except ParseError Expr} :
      s.rest = op :: ts → op.kind.isPrefixOperator → ¬ s.advance.isDeep c →
      Reads c unary s.advance.enter (r, s₁) → Reads c unary s (r.map (.unary op), s₁.leave)
  | plain {s : ParseState} {o : Except ParseError Expr × ParseState} :
      s.AtNo (·.kind.isPrefixOperator) → Reads c primary s o → Reads c unary s o
  | groupDeep {s : ParseState} {opening : Token} {ts : List Token} : s.rest = opening :: ts →
      opening.kind = .mark .leftParen → s.advance.isDeep c →
      Reads c primary s (s.advance.fail c .tooDeeplyNested)
  | groupFail {s s₁ : ParseState} {opening : Token} {ts : List Token} {e : ParseError} :
      s.rest = opening :: ts → opening.kind = .mark .leftParen → ¬ s.advance.isDeep c →
      Reads c expression s.advance.enter (.error e, s₁) → Reads c primary s (.error e, s₁.leave)
  | groupOpen {s s₁ : ParseState} {opening : Token} {ts : List Token} {inner : Expr} :
      s.rest = opening :: ts → opening.kind = .mark .leftParen → ¬ s.advance.isDeep c →
      Reads c expression s.advance.enter (.ok inner, s₁) →
      s₁.AtNo (·.kind = .mark .rightParen) →
      Reads c primary s (s₁.leave.fail c .expectClosingParen)
  | group {s s₁ : ParseState} {opening closing : Token} {ts us : List Token} {inner : Expr} :
      s.rest = opening :: ts → opening.kind = .mark .leftParen → ¬ s.advance.isDeep c →
      Reads c expression s.advance.enter (.ok inner, s₁) → s₁.rest = closing :: us →
      closing.kind = .mark .rightParen → Reads c primary s (.ok (.group inner), s₁.leave.advance)
  | literal {s : ParseState} {t : Token} {ts : List Token} {v : Value} : s.rest = t :: ts →
      t.value? = some v → Reads c primary s (.ok (.literal v), s.advance)
  | noOperand {s : ParseState} : s.AtNo (fun t => t.kind = .mark .leftParen ∨ t.value?.isSome) →
      Reads c primary s (s.fail c .expectExpression)

variable {c : Setting} {r : Rule} {s : ParseState} {o : Except ParseError Expr × ParseState}

theorem reads_takeLiteral (h : s.AtNo (·.kind = .mark .leftParen)) :
    Reads c primary s (takeLiteral c s).1 := by
  unfold takeLiteral
  split
  · rename_i v hv
    obtain ⟨t, ht, hv⟩ := Option.bind_eq_some_iff.1 hv
    obtain ⟨ts, hs⟩ := List.head?_eq_some_iff.1 ht
    exact .literal hs hv
  · rename_i hv
    refine .noOperand fun t ht => ?_
    have hk := h t ht
    rw [Option.mem_def] at ht
    rw [ht, Option.bind_some] at hv
    simp [hk, hv]

theorem reads_closeGroup {s₁ : ParseState} {opening : Token} {ts : List Token} {inner : Expr}
    (hs : s.rest = opening :: ts) (hk : opening.kind = .mark .leftParen)
    (hd : ¬ s.advance.isDeep c) (h : Reads c expression s.advance.enter (.ok inner, s₁)) :
    Reads c primary s (closeGroup c inner s₁.leave).1 := by
  unfold closeGroup
  by_cases hc : s₁.leave.rest.head?.any (·.kind = .mark .rightParen)
  · rw [if_pos hc]
    obtain ⟨closing, hm, hc⟩ := (Option.any_eq_true _ _).1 hc
    obtain ⟨us, hr⟩ := List.head?_eq_some_iff.1 hm
    exact .group hs hk hd h hr (by simpa using hc)
  · rw [if_neg hc]
    refine .groupOpen hs hk hd h fun t ht hr => hc ?_
    rw [Option.mem_def] at ht
    simp [ht, hr]

theorem reads_parse (c : Setting) (r : Rule) (s : ParseState) : Reads c r s (parse c r s) := by
  match r with
  | .chain l =>
    have ho := reads_parse c l.operand s
    rw [parse_chain]
    rcases hp : parse c l.operand s with ⟨e | left, s₁⟩ <;> rw [hp] at ho
    · exact .chainFail ho
    · have hle : s₁.rest.length ≤ s.rest.length := by
        simpa [hp] using length_rest_parse_le c l.operand s
      exact .chain ho (reads_parse c (.link l left 0) s₁)
  | .link l left folds =>
    rw [parse_link]
    rcases hs : s.rest with _ | ⟨op, ts⟩
    · exact .linkEnd (by simp [AtNo, hs])
    · simp only
      split_ifs with hl ht
      · exact .linkTall hs hl ht
      · have ho := reads_parse c l.operand s.advance.grow
        rcases hp : parse c l.operand s.advance.grow with ⟨e | right, s₁⟩ <;> rw [hp] at ho
        · exact .linkFail hs hl ht ho
        · have hle : s₁.rest.length ≤ ts.length := by
            simpa [hp, hs] using length_rest_parse_le c l.operand s.advance.grow
          exact .link hs hl ht ho (reads_parse c (.link l (.binary left op right) (folds + 1)) s₁)
      · exact .linkEnd (by simpa [AtNo, hs] using hl)
  | .unary =>
    rw [parse_unary]
    rcases hs : s.rest with _ | ⟨op, ts⟩
    · exact .plain (by simp [AtNo, hs]) (reads_parse c .primary s)
    · simp only
      split_ifs with hp hd
      · exact .unaryDeep hs hp hd
      · exact .unary hs hp hd (reads_parse c .unary s.advance.enter)
      · exact .plain (by simpa [AtNo, hs] using hp) (reads_parse c .primary s)
  | .primary =>
    rw [parse_primary]
    split
    · exact reads_takeLiteral (by simp [AtNo, *])
    · rename_i t ts hs
      split_ifs with hk hd
      · exact .groupDeep hs hk hd
      · have ho := reads_parse c .expression s.advance.enter
        rcases hp : parse c .expression s.advance.enter with ⟨e | inner, s₁⟩ <;> rw [hp] at ho
        · exact .groupFail hs hk hd ho
        · exact reads_closeGroup hs hk hd ho
      · exact reads_takeLiteral (by simpa [AtNo, hs] using hk)
termination_by 8 * s.rest.length + r.rank
decreasing_by
  · have := rank_operand_lt l
    omega
  · have := rank_chain_pos l
    simp only [rank_link]
    omega
  · have := rank_le l.operand
    simp [hs]
    omega
  · simp only [rank_link, hs, List.length_cons]
    omega
  · simp
  · simp [hs]
  · simp
  · rename_i hs
    simp [hs]
    omega

theorem takeLiteral_some {v : Value} (h : s.rest.head?.bind Token.value? = some v) :
    (takeLiteral c s).1 = (.ok (.literal v), s.advance) := by
  unfold takeLiteral
  split <;> simp_all

theorem takeLiteral_none (h : s.rest.head?.bind Token.value? = none) :
    (takeLiteral c s).1 = s.fail c .expectExpression := by
  unfold takeLiteral
  split <;> simp_all

namespace Reads

theorem eq_parse (h : Reads c r s o) : o = parse c r s := by
  induction h with
  | chainFail _ ih => rw [parse_chain, ← ih]
  | chain _ _ ih ih' => rw [parse_chain, ← ih, ih']
  | @linkEnd l left folds s hn =>
    rw [parse_link]
    rcases hs : s.rest with _ | ⟨op, ts⟩
    · rfl
    · exact (if_neg (hn op (by simp [hs]))).symm
  | linkTall hs hl ht =>
    rw [parse_link]
    simp only [hs, if_pos hl, if_pos ht]
  | linkFail hs hl ht _ ih =>
    rw [parse_link]
    simp only [hs, if_pos hl, if_neg ht, ← ih]
  | link hs hl ht _ _ ih ih' =>
    rw [parse_link]
    simp only [hs, if_pos hl, if_neg ht, ← ih, ih']
  | unaryDeep hs hp hd =>
    rw [parse_unary]
    simp only [hs, if_pos hp, if_pos hd]
  | unary hs hp hd _ ih =>
    rw [parse_unary]
    simp only [hs, if_pos hp, if_neg hd, ← ih]
  | @plain s o hn _ ih =>
    rw [parse_unary, ih]
    rcases hs : s.rest with _ | ⟨op, ts⟩
    · rfl
    · exact (if_neg (hn op (by simp [hs]))).symm
  | groupDeep hs hk hd =>
    rw [parse_primary]
    simp only [hs, if_pos hk, if_pos hd]
  | groupFail hs hk hd _ ih =>
    rw [parse_primary]
    simp only [hs, if_pos hk, if_neg hd, ← ih]
  | @groupOpen s s₁ _ _ _ hs hk hd _ hn ih =>
    rw [parse_primary]
    simp only [hs, if_pos hk, if_neg hd, ← ih, closeGroup]
    rw [if_neg]
    intro hc
    obtain ⟨t, ht, hc⟩ := (Option.any_eq_true _ _).1 hc
    exact hn t ht (by simpa using hc)
  | group hs hk hd _ hr hc ih =>
    rw [parse_primary]
    simp only [hs, if_pos hk, if_neg hd, ← ih, closeGroup]
    rw [if_pos (by simp [hr, hc])]
  | @literal s t ts v hs hv =>
    have hk : t.kind ≠ .mark .leftParen := by
      rintro hk
      simp [Token.value?, hk] at hv
    rw [parse_primary]
    simp only [hs, if_neg hk]
    exact (takeLiteral_some (by simp [hs, hv])).symm
  | @noOperand s hn =>
    rw [parse_primary]
    split
    · exact (takeLiteral_none (by simp [*])).symm
    · rename_i t ts hs
      have ht := hn t (by simp [hs])
      simp only [not_or] at ht
      rw [if_neg ht.1]
      exact (takeLiteral_none (by simpa [hs] using ht.2)).symm

end Reads

theorem reads_iff : Reads c r s o ↔ o = parse c r s :=
  ⟨Reads.eq_parse, fun h => h ▸ reads_parse c r s⟩

/-- The report that a result calls for: its error, if it is one. -/
def reported : Except ParseError Expr → List Diagnostic
  | .ok _ => []
  | .error e => [.parse e]

theorem reported_map (f : Expr → Expr) (r : Except ParseError Expr) :
    reported (r.map f) = reported r := by
  cases r <;> rfl

namespace Reads

/-- Each error is reported once, where it arises, and nothing else is. -/
theorem reports_eq (h : Reads c r s o) : o.2.reports = s.reports ++ reported o.1 := by
  induction h with
  | chainFail _ ih => exact ih
  | chain _ _ ih ih' | link _ _ _ _ _ ih ih' =>
    simp only [reported, List.append_nil, reports_grow, reports_advance] at ih
    rw [ih', ih]
  | linkEnd | literal => simp [reported]
  | linkTall | unaryDeep | groupDeep | noOperand => simp [reported]
  | linkFail _ _ _ _ ih | groupFail _ _ _ _ ih => simpa using ih
  | unary _ _ _ _ ih => simpa [reported_map] using ih
  | plain _ _ ih => exact ih
  | groupOpen _ _ _ _ _ ih | group _ _ _ _ _ _ ih =>
    simp only [reported, List.append_nil, reports_enter, reports_advance] at ih
    simp [ih, reported]

end Reads

end Rule

end Lox
