import Lox.Proofs.Lockstep
import Lox.Proofs.Scanning

/-!
# Literals erased

What a scan keeps as the literal of a number or a string is what an expression reads from the
lexeme where there is no literal (`Scan.spelled_of_mem`). So the tokens of a source and the same
tokens without their literals go in step, and a session shows the same over both but for the
literals of the tokens that it stands at or blames (`Session.trace_erased`).
-/

namespace Lox

namespace Token

/-- A token without its literal. -/
def erased (t : Token) : Token := { t with literal := none }

def isValued (t : Token) : Bool := t.kind == .number || t.kind == .string

variable {t : Token}

theorem isValued_iff : t.isValued ↔ t.kind = .number ∨ t.kind = .string := by simp [isValued]

/-- Exactly a number and a string have a literal, and the lexeme says what it says. -/
structure Spelled (t : Token) : Prop where
  isSome_literal : t.literal.isSome = t.isValued
  value?_erased : t.erased.value? = t.value?

theorem Spelled.of_isValued {l : Literal} (hk : t.isValued) (hl : t.literal = some l)
    (he : t.erased.Denotes (.ofLiteral l)) : t.Spelled := by
  refine ⟨by rw [hl, hk, Option.isSome_some], ?_⟩
  rw [value?_eq_some_iff.2 he, value?_eq_some_iff.2 (.literal (isValued_iff.1 hk) hl)]

theorem Spelled.of_not_isValued (hk : t.isValued = false) (hl : t.literal = none) : t.Spelled := by
  have heq : t.erased = t := by rw [erased, ← hl]
  exact ⟨by rw [hl, hk, Option.isSome_none], by rw [heq]⟩

theorem Spelled.erased_eq_of_mark {m : Mark} (h : t.Spelled) (hk : t.kind = .mark m) :
    t.erased = t := by
  have hvalued : t.isValued = false := by
    rw [isValued, hk]
    rfl
  have hnone := h.isSome_literal
  rw [hvalued, Option.isSome_eq_false_iff, Option.isNone_iff_eq_none] at hnone
  rw [erased, ← hnone]

theorem Spelled.isSome_value? (h : t.Spelled) (hk : t.isValued) : t.value?.isSome := by
  obtain ⟨l, hl⟩ := Option.isSome_iff_exists.1 (h.isSome_literal.trans hk)
  rw [value?_eq_some_iff.2 (.literal (isValued_iff.1 hk) hl), Option.isSome_some]

theorem value?_eq_none_of_isEof (h : t.isEof) : t.value? = none := by
  have hk : t.kind = .eof := by simpa [isEof] using h
  simp only [value?, hk]

end Token

theorem Tile.Gives.spelled {line : Nat} {tile : Tile} {t : Token} (h : tile.Gives line t) :
    t.Spelled := by
  obtain ⟨hreads, hlexeme, -⟩ := h
  generalize hk : t.kind = k, hl : t.literal = l at hreads
  cases hreads with
  | string body =>
    exact .of_isValued (Token.isValued_iff.2 (.inr hk)) hl (.quoted hk rfl hlexeme)
  | @number digits n hn =>
    have hlexeme : t.lexeme.toList = digits := hlexeme
    exact .of_isValued (Token.isValued_iff.2 (.inl hk)) hl (.numeral hk rfl (hlexeme ▸ hn))
  | keyword | identifier | mark => exact .of_not_isValued (by rw [Token.isValued, hk]; rfl) hl

/-- The scanner and the parser agree on what a lexeme stands for. -/
theorem Scan.spelled_of_mem {source : String} {t : Token} (h : t ∈ (ofSource source).tokens) :
    t.Spelled := by
  by_cases hk : t.kind = .eof
  · rcases List.mem_append.1 h with h | h
    · obtain ⟨p, -, hp⟩ := List.mem_filterMap.1 h
      have hnot : !t.isEof := Tile.not_isEof_token? hp
      simp [Token.isEof, hk] at hnot
    · rw [List.mem_singleton.1 h]
      exact .of_not_isValued rfl rfl
  · obtain ⟨line, tile, -, -, hgives⟩ := exists_gives h hk
    exact hgives.spelled

/-- Tokens with and without the literals that their lexemes tell. -/
def Likeness.erased : Likeness where
  token t t' := t' = t.erased ∧ t.Spelled
  value := Eq
  kind_eq := by
    rintro t _ ⟨rfl, -⟩
    rfl
  value?_rel := by
    rintro t _ ⟨rfl, h⟩
    rw [h.value?_erased]
    rcases t.value? with _ | v
    · exact .none
    · exact .some rfl

theorem Likeness.throughout_erased {ts : List Token} (h : ∀ t ∈ ts, t.Spelled) :
    erased.Throughout ts (ts.map Token.erased) := by
  have hlast : ((ts.map Token.erased).getLast?.map Token.line) = ts.getLast?.map Token.line := by
    rw [List.getLast?_map, Option.map_map]
    rfl
  refine throughout_of_forall₂ ?_ ?_
  · exact List.forall₂_map_right_iff.2 (List.forall₂_same.2 fun t ht => ⟨rfl, h t ht⟩)
  · rw [hlast]
    exact ⟨rfl, .of_not_isValued rfl rfl⟩

/-- Operators have no literals to lose. -/
theorem Expr.Alike.eq_of_erased {e e' : Expr} (h : e.Alike .erased e') (hg : e.Grammatical) :
    e' = e := by
  induction h with
  | literal hv => rw [show _ = _ from hv]
  | unary hop _ ih =>
    obtain ⟨hp, -, hg⟩ := hg
    obtain ⟨m, hm⟩ := Kind.exists_mark (.inl hp)
    rw [hop.1, hop.2.erased_eq_of_mark hm, ih hg]
  | binary _ hop _ ihl ihr =>
    obtain ⟨l, hl, -, -, hgl, hgr⟩ := hg
    obtain ⟨m, hm⟩ := Kind.exists_mark (.inr (by rw [hl]; rfl))
    rw [hop.1, hop.2.erased_eq_of_mark hm, ihl hgl, ihr hgr]
  | group _ ih => rw [ih hg]

/-- An operand is missing where the parse ends or stands at a token without a value. -/
theorem Rule.Reads.value?_eq_none {c : Setting} {r : Rule} {s : ParseState}
    {o : Except ParseError Expr × ParseState} (h : Reads c r s o) (hc : c.final.isEof) :
    ∀ {e : ParseError}, o.1 = .error e → e.cause = .expectExpression → e.token.value? = none := by
  induction h with
  | chainFail _ ih | plain _ _ ih | chain _ _ _ ih | link _ _ _ _ _ _ ih => exact ih
  | linkFail _ _ _ _ ih | groupFail _ _ _ _ ih => exact fun he => ih he
  | linkEnd | literal | group =>
    rintro e ⟨⟩
  | linkTall | unaryDeep | groupDeep | groupOpen =>
    rintro e ⟨rfl⟩ ⟨⟩
  | @unary s s₁ op ts r _ _ _ _ ih =>
    intro e he
    cases r with
    | ok _ => cases he
    | error e' =>
      cases he
      exact ih rfl
  | @noOperand s hn =>
    rintro e ⟨rfl⟩ -
    show (s.rest.headD c.final).value? = none
    rcases hs : s.rest with _ | ⟨t, ts⟩
    · exact Token.value?_eq_none_of_isEof hc
    · have ht := hn t (by rw [hs]; rfl)
      simpa using (not_or.1 ht).2

def ParseError.erased (e : ParseError) : ParseError := { e with token := e.token.erased }

def Diagnostic.erased : Diagnostic → Diagnostic
  | parse e => parse e.erased
  | d => d

def View.erased (v : View) : View :=
  { v with peek := v.peek.erased, reports := v.reports.map Diagnostic.erased }

namespace Session

/-- What a call answers and shows, with the literals of tokens erased. -/
def erasedStep : Option (Except ParseError Expr) × View → Option (Except ParseError Expr) × View :=
  Prod.map (Option.map (Except.mapError ParseError.erased)) View.erased

variable {limits : Limits} {tokens ts us : List Token} {s t : Session}

theorem grammatical_of_parse {e : Expr} (h : s.parse.1 = .ok e) : e.Grammatical := by
  obtain ⟨n, hl⟩ := leads_of_parse (Prod.ext h rfl : s.parse = (.ok e, s.parse.2))
  exact hl.grammatical

theorem InStep.answer_erased (h : InStep limits ts us s t) (hl : Likeness.erased.Throughout ts us)
    (a : Action) : t.answer a = (s.answer a).map (Except.mapError ParseError.erased) := by
  cases a with
  | synchronize => rfl
  | parse =>
    have hres := (h.parse hl).2
    show some t.parse.1 = some (s.parse.1.mapError ParseError.erased)
    generalize hs : s.parse.1 = r, t.parse.1 = r' at hres
    cases hres with
    | ok he =>
      rw [he.eq_of_erased (grammatical_of_parse hs)]
      rfl
    | error ht =>
      rw [ht.1]
      rfl

theorem reports_act_erased (hr : t.reports = s.reports.map Diagnostic.erased) {a : Action}
    (ha : t.answer a = (s.answer a).map (Except.mapError ParseError.erased)) :
    (t.act a).reports = (s.act a).reports.map Diagnostic.erased := by
  rw [reports_act, reports_act, hr, ha, List.map_append]
  rcases s.answer a with _ | e | tree <;> rfl

theorem InStep.view_erased (h : InStep limits ts us s t) (hl : Likeness.erased.Throughout ts us)
    (hr : t.reports = s.reports.map Diagnostic.erased) : t.view = s.view.erased := by
  have hpeek : t.peek = s.peek.erased := (h.peek_alike hl).1
  rw [view, h.position_eq, h.isAtEnd_eq hl, hpeek, hr]
  rfl

theorem InStep.steps_erased (h : InStep limits ts us s t) (hl : Likeness.erased.Throughout ts us)
    (hr : t.reports = s.reports.map Diagnostic.erased) (actions : List Action) :
    t.steps actions = (s.steps actions).map erasedStep := by
  induction actions generalizing s t with
  | nil => rfl
  | cons a as ih =>
    have hnext := (h.act hl a).1
    have hanswer := h.answer_erased hl a
    have hreports := reports_act_erased hr hanswer
    rw [steps, steps, List.map_cons, ih hnext hreports, hnext.view_erased hl hreports, hanswer]
    rfl

theorem Over.of_mem_errors (h : s.Over limits tokens) {actions : List Action} {e : ParseError}
    (he : e ∈ s.errors actions) :
    ∃ s' : Session, s'.Over limits tokens ∧ s'.parse.1 = .error e := by
  induction actions generalizing s with
  | nil => cases he
  | cons a as ih =>
    cases a with
    | synchronize => exact ih (h.act .synchronize) he
    | parse =>
      have hnext : s.parse.2.Over limits tokens := h.act .parse
      unfold errors at he
      rcases hp : s.parse with ⟨e' | tree, s'⟩ <;> rw [hp] at he hnext
      · rcases List.mem_cons.1 he with rfl | he
        · exact ⟨s, h, congrArg Prod.fst hp⟩
        · exact ih hnext he
      · exact ih hnext he

/-- No number and no string is blamed for a missing operand. -/
theorem Over.not_isValued_of_error (h : s.Over limits tokens) (ht : ∀ t ∈ tokens, t.Spelled)
    {e : ParseError} (he : s.parse.1 = .error e) (hc : e.cause = .expectExpression) :
    ¬ e.token.isValued := by
  intro hk
  obtain ⟨f, hr, -, -⟩ := s.reads_parse
  have hnone := hr.value?_eq_none h.final_isEof he hc
  have hmem : e.token ∈ sealed tokens := List.mem_of_getElem? (h.getElem?_of_error he)
  rw [sealed_eq, List.mem_append, List.mem_singleton] at hmem
  -- a token of the list has a value if it is a number or a string, and the end of input is neither
  rcases hmem with hmem | hfinal
  · have hsome := (ht _ ((List.takeWhile_sublist _).subset hmem)).isSome_value? hk
    rw [hnone] at hsome
    cases hsome
  · have heof := finalToken_isEof tokens
    rw [← hfinal, Token.isEof, beq_iff_eq] at heof
    rw [Token.isValued, heof] at hk
    cases hk

/-- Exactly the numbers and the strings of a source have literals, which say what the lexemes say,
and no call needs them: without any, a session gives the same trees from the same places, and the
same errors but for the literals of the tokens they blame. An operand is never missed at a number
or a string. -/
theorem trace_erased (source : String) (limits : Limits) (actions : List Action) :
    let tokens := (Scan.ofSource source).tokens
    let shown := (start limits tokens).trace actions
    (∀ t ∈ tokens, (t.literal.isSome ↔ t.kind = .number ∨ t.kind = .string) ∧
        t.erased.value? = t.value?) ∧
      (start limits (tokens.map Token.erased)).trace actions =
        (shown.1.erased, shown.2.map erasedStep) ∧
      ∀ e ∈ (start limits tokens).errors actions, e.cause = .expectExpression →
        e.token.kind ≠ .number ∧ e.token.kind ≠ .string := by
  intro tokens shown
  have hspelled : ∀ t ∈ tokens, t.Spelled := fun t => Scan.spelled_of_mem
  have hl := Likeness.throughout_erased hspelled
  have hstep : InStep limits tokens (tokens.map Token.erased) _ _ := .start _ _ _
  refine ⟨fun t ht => ?_, Prod.ext ?_ ?_, fun e he hc => ?_⟩
  · rw [(hspelled t ht).isSome_literal, Token.isValued_iff]
    exact ⟨Iff.rfl, (hspelled t ht).value?_erased⟩
  · exact hstep.view_erased hl rfl
  · exact hstep.steps_erased hl rfl actions
  · obtain ⟨s, hs, hp⟩ := (over_start limits tokens).of_mem_errors he
    have hnot := hs.not_isValued_of_error hspelled hp hc
    rwa [Token.isValued_iff, not_or] at hnot

end Session

end Lox
