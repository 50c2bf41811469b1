import Lox.Proofs.Reading

/-!
# What a rule depends on

A rule looks at the tokens it takes and at the one it stops before, and of these only at the kind
and the value. A `Likeness` says how else tokens may differ. Two lists are `Abreast` down to a stop
in each if they are alike up to there and alike in what comes next; a rule that reads the one to
its stop then reads the other to its own, with a like result (`Reads.alike`).

With `Likeness.same`, where nothing may differ, this says that what stands before and after the
tokens a rule sees does not matter, nor does what was reported before.
-/

namespace Lox

/-- Tokens that may differ in all but their kind and in what they stand for up to `value`. -/
structure Likeness where
  token : Token → Token → Prop
  value : Value → Value → Prop
  kind_eq {t t' : Token} : token t t' → t.kind = t'.kind
  value?_rel {t t' : Token} : token t t' → Option.Rel value t.value? t'.value?

/-- Only the same is alike. -/
def Likeness.same : Likeness where
  token := Eq
  value := Eq
  kind_eq h := congrArg Token.kind h
  value?_rel {t _} h := by
    subst h
    rcases t.value? with _ | v
    · exact .none
    · exact .some rfl

namespace Likeness

variable (L : Likeness) {t t' : Token}

theorem exists_value? {v : Value} (h : L.token t t') (hv : t.value? = some v) :
    ∃ v', t'.value? = some v' ∧ L.value v v' := by
  have hrel := L.value?_rel h
  rw [hv] at hrel
  generalize t'.value? = v' at hrel
  cases hrel with
  | some hvv => exact ⟨_, rfl, hvv⟩

theorem isSome_value?_eq (h : L.token t t') : t.value?.isSome = t'.value?.isSome := by
  have hrel := L.value?_rel h
  generalize t.value? = v, t'.value? = v' at hrel
  cases hrel <;> rfl

end Likeness

variable {L : Likeness}

/-- Trees of one shape. -/
inductive Expr.Alike (L : Likeness) : Expr → Expr → Prop
  | literal {v v' : Value} : L.value v v' → Alike L (.literal v) (.literal v')
  | unary {op op' : Token} {e e' : Expr} : L.token op op' → Alike L e e' →
      Alike L (.unary op e) (.unary op' e')
  | binary {op op' : Token} {left left' right right' : Expr} : Alike L left left' →
      L.token op op' → Alike L right right' → Alike L (.binary left op right)
        (.binary left' op' right')
  | group {e e' : Expr} : Alike L e e' → Alike L (.group e) (.group e')

theorem Expr.Alike.eq {e e' : Expr} (h : e.Alike .same e') : e = e' := by
  induction h with
  | literal hv => exact congrArg _ hv
  | unary hop _ ih => rw [hop, ih]
  | binary _ hop _ ihl ihr => rw [hop, ihl, ihr]
  | group _ ih => rw [ih]

namespace Likeness

/-- Trees of one shape, or errors of one cause at like tokens. -/
inductive Result (L : Likeness) :
    Except ParseError Expr → Except ParseError Expr → Prop
  | ok {e e' : Expr} : e.Alike L e' → Result L (.ok e) (.ok e')
  | error {cause : Cause} {t t' : Token} : L.token t t' →
      Result L (.error ⟨cause, t⟩) (.error ⟨cause, t'⟩)

theorem Result.eq {r r' : Except ParseError Expr} (h : Likeness.same.Result r r') : r = r' := by
  cases h with
  | ok he => rw [he.eq]
  | error ht => rw [show _ = _ from ht]

theorem Result.map {r r' : Except ParseError Expr} {f f' : Expr → Expr} (h : L.Result r r')
    (hf : ∀ e e', e.Alike L e' → (f e).Alike L (f' e')) : L.Result (r.map f) (r'.map f') := by
  cases h with
  | ok he => exact .ok (hf _ _ he)
  | error ht => exact .error ht

section Abreast

variable {c c' : Setting} {stop stop' rest rest' : List Token}

/-- What comes next is alike, be it a token or the end of input. -/
inductive Ahead (L : Likeness) (c c' : Setting) : List Token → List Token → Prop
  | token {t t' : Token} {ts ts' : List Token} : L.token t t' → Ahead L c c' (t :: ts) (t' :: ts')
  | final : L.token c.final c'.final → Ahead L c c' [] []

/-- Two lists are alike as far as a stop in each, and what comes next there is alike. -/
inductive Abreast (L : Likeness) (c c' : Setting) (stop stop' : List Token) :
    List Token → List Token → Prop
  | stop : L.Ahead c c' stop stop' → Abreast L c c' stop stop' stop stop'
  | step {t t' : Token} {ts ts' : List Token} : L.token t t' → Abreast L c c' stop stop' ts ts' →
      Abreast L c c' stop stop' (t :: ts) (t' :: ts')

namespace Abreast

theorem ahead (h : L.Abreast c c' stop stop' rest rest') : L.Ahead c c' rest rest' := by
  cases h with
  | stop ha => exact ha
  | step ht _ => exact .token ht

theorem ahead_stop (h : L.Abreast c c' stop stop' rest rest') : L.Ahead c c' stop stop' := by
  induction h with
  | stop ha => exact ha
  | step _ _ ih => exact ih

theorem suffix (h : L.Abreast c c' stop stop' rest rest') : stop <:+ rest := by
  induction h with
  | stop => exact List.suffix_rfl
  | step _ _ ih => exact ih.trans (List.suffix_cons _ _)

theorem length_add (h : L.Abreast c c' stop stop' rest rest') :
    rest.length + stop'.length = rest'.length + stop.length := by
  induction h with
  | stop => exact Nat.add_comm _ _
  | step _ _ ih =>
    simp only [List.length_cons]
    omega

theorem eq_stop (h : L.Abreast c c' stop stop' stop rest') : rest' = stop' := by
  cases h with
  | stop => rfl
  | step _ h =>
    have hle := h.suffix.length_le
    simp only [List.length_cons] at hle
    omega

theorem uncons {t : Token} {ts : List Token} (h : L.Abreast c c' stop stop' (t :: ts) rest')
    (hs : stop <:+ ts) :
    ∃ t' ts', rest' = t' :: ts' ∧ L.token t t' ∧ L.Abreast c c' stop stop' ts ts' := by
  cases h with
  | stop =>
    have hle := hs.length_le
    simp only [List.length_cons] at hle
    omega
  | step ht h => exact ⟨_, _, rfl, ht, h⟩

/-- A stop on the way. -/
theorem split {mid : List Token} (h : L.Abreast c c' stop stop' rest rest') (hm : mid <:+ rest)
    (hs : stop <:+ mid) :
    ∃ mid', L.Abreast c c' mid mid' rest rest' ∧ L.Abreast c c' stop stop' mid mid' := by
  induction h with
  | stop ha =>
    obtain rfl := hm.eq_of_length_le hs.length_le
    exact ⟨_, .stop ha, .stop ha⟩
  | @step t t' ts ts' ht h ih =>
    rcases List.suffix_cons_iff.1 hm with rfl | hm
    · exact ⟨_, .stop (.token ht), .step ht h⟩
    · obtain ⟨mid', h₁, h₂⟩ := ih hm
      exact ⟨mid', .step ht h₁, h₂⟩

end Abreast

end Abreast

end Likeness

namespace ParseState

/-- The same state elsewhere: before other tokens, and after other reports. -/
def moved (s : ParseState) (rest : List Token) (reports : List Diagnostic) : ParseState :=
  { s with rest := rest, reports := reports }

variable {c c' : Setting} {s : ParseState} {rest' : List Token} {reports' : List Diagnostic}

theorem isTall_advance_moved (h : c'.limits = c.limits) :
    (s.moved rest' reports').advance.isTall c' = s.advance.isTall c := by
  rw [isTall, isTall, h]
  rfl

theorem isDeep_advance_moved (h : c'.limits = c.limits) :
    (s.moved rest' reports').advance.isDeep c' = s.advance.isDeep c := by
  rw [isDeep, isDeep, isTall_advance_moved h, h]
  rfl

end ParseState

namespace Likeness

variable {c c' : Setting} {s : ParseState} {rest rest' : List Token} {reports' : List Diagnostic}

theorem Abreast.advance {stop stop' ts : List Token} {t : Token}
    (h : L.Abreast c c' stop stop' s.rest rest') (hs : s.rest = t :: ts)
    (hst : stop <:+ s.advance.rest) :
    ∃ t' ts', rest' = t' :: ts' ∧ L.token t t' ∧ L.Abreast c c' stop stop' s.advance.rest ts' := by
  rw [ParseState.rest_advance, hs, List.tail_cons] at hst ⊢
  rw [hs] at h
  exact h.uncons hst

theorem Ahead.headD (h : L.Ahead c c' rest rest') :
    L.token (rest.headD c.final) (rest'.headD c'.final) := by
  cases h with
  | token ht => exact ht
  | final ht => exact ht

theorem Ahead.atNo {p : Token → Prop} (h : L.Ahead c c' rest rest')
    (hn : ∀ t ∈ rest.head?, ¬ p t) (hp : ∀ t t', L.token t t' → p t' → p t) :
    ∀ t ∈ rest'.head?, ¬ p t := by
  cases h with
  | token ht =>
    rintro _ ⟨rfl⟩ hpt
    exact hn _ rfl (hp _ _ ht hpt)
  | final => exact hn

end Likeness

namespace Rule

open ParseState

/-- Rules that go on from like trees. -/
inductive Alike (L : Likeness) : Rule → Rule → Prop
  | chain (l : Level) : Alike L (.chain l) (.chain l)
  | link {left left' : Expr} (l : Level) (folds : Nat) : left.Alike L left' →
      Alike L (.link l left folds) (.link l left' folds)
  | unary : Alike L .unary .unary
  | primary : Alike L .primary .primary

theorem alike_operand (l : Level) : l.operand.Alike L l.operand := by cases l <;> constructor

variable {c c' : Setting} {r : Rule} {s : ParseState} {o : Except ParseError Expr × ParseState}

namespace Reads

theorem suffix (h : Reads c r s o) : o.2.rest <:+ s.rest := by
  induction h with
  | chainFail _ ih | plain _ _ ih => exact ih
  | chain _ _ ih ih' => exact ih'.trans ih
  | linkEnd | noOperand => exact List.suffix_rfl
  | linkTall | unaryDeep | groupDeep | literal => exact List.tail_suffix _
  | linkFail _ _ _ _ ih | unary _ _ _ _ ih | groupFail _ _ _ _ ih | groupOpen _ _ _ _ _ ih =>
    exact ih.trans (List.tail_suffix _)
  | link _ _ _ _ _ ih ih' => exact ih'.trans (ih.trans (List.tail_suffix _))
  | group _ _ _ _ _ _ ih => exact (List.tail_suffix _).trans (ih.trans (List.tail_suffix _))

/-- A rule goes alike where it sees alike tokens, up to the one it stops before. -/
theorem alike (h : Reads c r s o) (hc : c'.limits = c.limits) :
    ∀ (reports' : List Diagnostic) {r' : Rule} {rest' stop' : List Token}, r.Alike L r' →
      L.Abreast c c' o.2.rest stop' s.rest rest' → ∃ result' reports'', L.Result o.1 result' ∧
        Reads c' r' (s.moved rest' reports') (result', o.2.moved stop' reports'') := by
  induction h with
  | chainFail _ ih =>
    intro reports' r' rest' stop' hr ha
    cases hr
    obtain ⟨_, reports'', hres, h'⟩ := ih reports' (alike_operand _) ha
    cases hres with
    | error ht => exact ⟨_, reports'', .error ht, .chainFail h'⟩
  | chain h₁ h₂ ih₁ ih₂ =>
    intro reports' r' rest' stop' hr ha
    cases hr
    obtain ⟨mid', ha₁, ha₂⟩ := ha.split h₁.suffix h₂.suffix
    obtain ⟨_, reports₁, hres, h₁'⟩ := ih₁ reports' (alike_operand _) ha₁
    cases hres with
    | ok he =>
      obtain ⟨result', reports'', hres, h₂'⟩ := ih₂ reports₁ (.link _ _ he) ha₂
      exact ⟨result', reports'', hres, .chain h₁' h₂'⟩
  | linkEnd hn =>
    intro reports' r' rest' stop' hr ha
    cases hr with
    | link _ _ he =>
      obtain rfl := ha.eq_stop
      exact ⟨_, reports', .ok he, .linkEnd (ha.ahead.atNo hn fun t t' ht hl => by
        rwa [L.kind_eq ht])⟩
  | @linkTall l left folds s op ts hs hl ht =>
    intro reports' r' rest' stop' hr ha
    cases hr
    obtain ⟨op', ts', rfl, hop, ha⟩ := ha.advance hs List.suffix_rfl
    obtain rfl := ha.eq_stop
    exact ⟨_, _, .error ha.ahead.headD, .linkTall rfl (L.kind_eq hop ▸ hl)
      ((isTall_advance_moved hc).trans ht)⟩
  | linkFail hs hl ht h ih =>
    intro reports' r' rest' stop' hr ha
    cases hr
    obtain ⟨op', ts', rfl, hop, ha⟩ := ha.advance hs h.suffix
    obtain ⟨_, reports'', hres, h'⟩ := ih reports' (alike_operand _) ha
    cases hres with
    | error htok =>
      exact ⟨_, reports'', .error htok, .linkFail rfl (L.kind_eq hop ▸ hl)
        ((isTall_advance_moved hc).symm ▸ ht) h'⟩
  | link hs hl ht h₁ h₂ ih₁ ih₂ =>
    intro reports' r' rest' stop' hr ha
    cases hr with
    | link _ _ he =>
      obtain ⟨op', ts', rfl, hop, ha⟩ := ha.advance hs (h₂.suffix.trans h₁.suffix)
      obtain ⟨mid', ha₁, ha₂⟩ := ha.split h₁.suffix h₂.suffix
      obtain ⟨_, reports₁, hres, h₁'⟩ := ih₁ reports' (alike_operand _) ha₁
      cases hres with
      | ok hright =>
        obtain ⟨result', reports'', hres, h₂'⟩ :=
          ih₂ reports₁ (.link _ _ (.binary he hop hright)) ha₂
        exact ⟨result', reports'', hres, .link rfl (L.kind_eq hop ▸ hl)
          ((isTall_advance_moved hc).symm ▸ ht) h₁' h₂'⟩
  | unaryDeep hs hp hd =>
    intro reports' r' rest' stop' hr ha
    cases hr
    obtain ⟨op', ts', rfl, hop, ha⟩ := ha.advance hs List.suffix_rfl
    obtain rfl := ha.eq_stop
    exact ⟨_, _, .error ha.ahead.headD, .unaryDeep rfl (L.kind_eq hop ▸ hp)
      ((isDeep_advance_moved hc).trans hd)⟩
  | unary hs hp hd h ih =>
    intro reports' r' rest' stop' hr ha
    cases hr
    obtain ⟨op', ts', rfl, hop, ha⟩ := ha.advance hs h.suffix
    obtain ⟨result', reports'', hres, h'⟩ := ih reports' .unary ha
    exact ⟨_, reports'', hres.map fun e e' he => .unary hop he, .unary rfl (L.kind_eq hop ▸ hp)
      ((isDeep_advance_moved hc).symm ▸ hd) h'⟩
  | plain hn _ ih =>
    intro reports' r' rest' stop' hr ha
    cases hr
    obtain ⟨result', reports'', hres, h'⟩ := ih reports' .primary ha
    exact ⟨result', reports'', hres, .plain (ha.ahead.atNo hn fun t t' ht hp => by
      rwa [L.kind_eq ht]) h'⟩
  | groupDeep hs hk hd =>
    intro reports' r' rest' stop' hr ha
    cases hr
    obtain ⟨opening', ts', rfl, hopen, ha⟩ := ha.advance hs List.suffix_rfl
    obtain rfl := ha.eq_stop
    exact ⟨_, _, .error ha.ahead.headD, .groupDeep rfl (L.kind_eq hopen ▸ hk)
      ((isDeep_advance_moved hc).trans hd)⟩
  | groupFail hs hk hd h ih =>
    intro reports' r' rest' stop' hr ha
    cases hr
    obtain ⟨opening', ts', rfl, hopen, ha⟩ := ha.advance hs h.suffix
    obtain ⟨_, reports'', hres, h'⟩ := ih reports' (.chain _) ha
    cases hres with
    | error ht =>
      exact ⟨_, reports'', .error ht, .groupFail rfl (L.kind_eq hopen ▸ hk)
        ((isDeep_advance_moved hc).symm ▸ hd) h'⟩
  | @groupOpen s s₁ opening ts inner hs hk hd h hn ih =>
    intro reports' r' rest' stop' hr ha
    cases hr
    obtain ⟨opening', ts', rfl, hopen, ha⟩ := ha.advance hs h.suffix
    obtain ⟨_, reports'', hres, h'⟩ := ih reports' (.chain _) ha
    cases hres with
    | ok he =>
      have hn' : (s₁.moved stop' reports'').AtNo (·.kind = .mark .rightParen) :=
        ha.ahead_stop.atNo hn fun t t' ht hk => by rwa [L.kind_eq ht]
      have hfail : Reads c' primary (s.moved (opening' :: ts') reports')
          ((s₁.moved stop' reports'').leave.fail c' .expectClosingParen) :=
        .groupOpen rfl (L.kind_eq hopen ▸ hk) ((isDeep_advance_moved hc).symm ▸ hd) h' hn'
      exact ⟨_, _, .error ha.ahead_stop.headD, hfail⟩
  | group hs hk hd h hr₁ hk₁ ih =>
    intro reports' r' rest' stop' hr ha
    cases hr
    obtain ⟨opening', ts', rfl, hopen, ha⟩ :=
      ha.advance hs ((List.tail_suffix _).trans h.suffix)
    obtain ⟨mid', ha₁, ha₂⟩ := ha.split h.suffix (List.tail_suffix _)
    obtain ⟨_, reports'', hres, h'⟩ := ih reports' (.chain _) ha₁
    obtain ⟨closing', us', rfl, hclose, ha₂⟩ := ha₂.advance hr₁ List.suffix_rfl
    obtain rfl := ha₂.eq_stop
    cases hres with
    | ok he =>
      exact ⟨_, reports'', .ok (.group he), .group rfl (L.kind_eq hopen ▸ hk)
        ((isDeep_advance_moved hc).symm ▸ hd) h' rfl (L.kind_eq hclose ▸ hk₁)⟩
  | literal hs hv =>
    intro reports' r' rest' stop' hr ha
    cases hr
    obtain ⟨t', ts', rfl, ht, ha⟩ := ha.advance hs List.suffix_rfl
    obtain rfl := ha.eq_stop
    obtain ⟨v', hv', hvv⟩ := L.exists_value? ht hv
    exact ⟨_, _, .ok (.literal hvv), .literal rfl hv'⟩
  | noOperand hn =>
    intro reports' r' rest' stop' hr ha
    cases hr
    obtain rfl := ha.eq_stop
    refine ⟨_, _, .error ha.ahead.headD, .noOperand (ha.ahead.atNo hn fun t t' ht => ?_)⟩
    rw [L.kind_eq ht, L.isSome_value?_eq ht]
    exact id

end Reads

end Rule

end Lox
