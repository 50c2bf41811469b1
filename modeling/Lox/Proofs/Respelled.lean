import Lox.Proofs.LineEnds
import Lox.Proofs.Lockstep

/-!
# Tokens spelled otherwise

A session goes by the kinds of the tokens and by the values of the operands. Lists of tokens that
agree in these go in step, though lexemes, lines and the literals of other tokens may be anything
(`Session.run_agreeing`). In particular a tree does not change but for its operators' tokens if
these are spelled otherwise or the text is moved to other lines, and lists that are equal as `==`
has it, which takes the two zeros for one value, give equal results.
-/

namespace Lox

section Lists

variable {α : Type} [BEq α]

theorem rel_of_beq {x y : Option α} (h : x == y) : Option.Rel (fun a b => a == b) x y := by
  cases x with
  | none =>
    cases y with
    | none => exact .none
    | some b => cases h
  | some a =>
    cases y with
    | none => cases h
    | some b => exact .some h

theorem forall₂_of_beq {xs ys : List α} (h : xs == ys) :
    List.Forall₂ (fun a b => a == b) xs ys := by
  induction xs generalizing ys with
  | nil =>
    cases ys with
    | nil => exact .nil
    | cons b ys => cases h
  | cons a xs ih =>
    cases ys with
    | nil => cases h
    | cons b ys =>
      rw [List.cons_beq_cons, Bool.and_eq_true] at h
      exact .cons h.1 (ih h.2)

end Lists

instance : ReflBEq Number where
  rfl {n} := by cases n <;> simp [BEq.beq]

instance : ReflBEq Value where
  rfl {v} := by
    cases v with
    | number n => exact (BEq.rfl : n == n)
    | _ => simp [BEq.beq, instBEqValue.beq]

theorem Value.ofLiteral_beq {l l' : Literal} (h : l == l') :
    Value.ofLiteral l == Value.ofLiteral l' := by
  cases l <;> cases l' <;> exact h

theorem Token.beq_iff {t t' : Token} : t == t' ↔ t.kind = t'.kind ∧ t.lexeme = t'.lexeme ∧
    t.literal == t'.literal ∧ t.line = t'.line := by
  show instBEqToken.beq t t' ↔ _
  simp [instBEqToken.beq]

theorem ParseError.beq_iff {x x' : ParseError} :
    x == x' ↔ x.cause = x'.cause ∧ x.token == x'.token := by
  show instBEqParseError.beq x x' ↔ _
  simp [instBEqParseError.beq]

namespace Token

variable {t t' : Token}

/-- The kinds are the same, and the values that operands have are equal. -/
def Agrees (t t' : Token) : Prop :=
  t.kind = t'.kind ∧ (t.kind = .number ∨ t.kind = .string → t.value? == t'.value?)

instance : DecidableRel Agrees := fun t t' =>
  inferInstanceAs (Decidable (t.kind = t'.kind ∧ (_ → t.value? == t'.value?)))

/-- What a token says besides its spelling and its place. -/
def bare (t : Token) : Token := { t with lexeme := "", line := 0 }

/-- Only the lexeme and the line differ, and not so that the value does. -/
def Respelled (t t' : Token) : Prop := t.bare = t'.bare ∧ t.value? = t'.value?

/-- The kind says what value a token has that is no number and no string. -/
theorem value?_eq_of_kind (hk : t.kind = t'.kind) (hn : ¬ (t.kind = .number ∨ t.kind = .string)) :
    t.value? = t'.value? := by
  unfold value?
  rw [← hk]
  split <;> simp_all

theorem Agrees.value?_beq (h : t.Agrees t') : t.value? == t'.value? := by
  by_cases hn : t.kind = .number ∨ t.kind = .string
  · exact h.2 hn
  · rw [value?_eq_of_kind h.1 hn]
    exact BEq.rfl

theorem Respelled.kind_eq (h : t.Respelled t') : t.kind = t'.kind :=
  show t.bare.kind = t'.bare.kind by rw [h.1]

theorem agrees_of_beq (h : t == t') : t.Agrees t' := by
  obtain ⟨hk, hlexeme, hl, -⟩ := beq_iff.1 h
  have hlexeme : t.lexemeValue? = t'.lexemeValue? := by
    unfold lexemeValue?
    rw [hk, hlexeme]
  refine ⟨hk, fun hn => ?_⟩
  have hvalue (u : Token) (hu : u.kind = .number ∨ u.kind = .string) :
      u.value? = (u.literal.map Value.ofLiteral).or u.lexemeValue? := by
    rcases hu with hu | hu <;> simp only [value?, hu]
  rw [hvalue t hn, hvalue t' (hk ▸ hn), hlexeme]
  have hrel := rel_of_beq hl
  generalize t.literal = l, t'.literal = l' at hrel
  cases hrel with
  | none => exact BEq.rfl
  | some hl => exact Value.ofLiteral_beq hl

end Token

namespace Likeness

def agreeing : Likeness where
  token := Token.Agrees
  value v v' := v == v'
  kind_eq h := h.1
  value?_rel h := rel_of_beq h.value?_beq

def respelled : Likeness where
  token := Token.Respelled
  value := Eq
  kind_eq := Token.Respelled.kind_eq
  value?_rel {t t'} h := by
    rw [h.2]
    rcases t'.value? with _ | v
    · exact .none
    · exact .some rfl

def equal : Likeness where
  token t t' := t == t'
  value v v' := v == v'
  kind_eq h := (Token.beq_iff.1 h).1
  value?_rel h := rel_of_beq (Token.agrees_of_beq h).value?_beq

variable {ts us : List Token}

theorem throughout_agreeing (h : List.Forall₂ Token.Agrees ts us) : agreeing.Throughout ts us :=
  throughout_of_forall₂ h ⟨rfl, fun hn => by simp [Token.eof] at hn⟩

theorem throughout_respelled (h : List.Forall₂ Token.Respelled ts us) :
    respelled.Throughout ts us :=
  throughout_of_forall₂ h ⟨rfl, rfl⟩

theorem throughout_equal (h : ts == us) : equal.Throughout ts us := by
  have hall := forall₂_of_beq h
  have hlast : ts.getLast?.map Token.line = us.getLast?.map Token.line := by
    have hrev := List.rel_reverse hall
    rw [List.getLast?_eq_head?_reverse, List.getLast?_eq_head?_reverse]
    generalize ts.reverse = ts, us.reverse = us at hrev
    cases hrev with
    | nil => rfl
    | cons ht _ => simp [(Token.beq_iff.1 ht).2.2.2]
  refine throughout_of_forall₂ hall ?_
  rw [hlast]
  exact Token.beq_iff.2 ⟨rfl, rfl, rfl, rfl⟩

end Likeness

namespace Expr

/-- The tree without the spelling and the place of its operators. -/
def bare : Expr → Expr
  | literal v => literal v
  | unary op e => unary op.bare e.bare
  | binary left op right => binary left.bare op.bare right.bare
  | group e => group e.bare

variable {e e' : Expr}

theorem Alike.bare_eq (h : e.Alike .respelled e') : e.bare = e'.bare := by
  induction h with
  | literal hv => rw [show _ = _ from hv]
  | unary hop _ ih => rw [bare, bare, hop.1, ih]
  | binary _ hop _ ihl ihr => rw [bare, bare, hop.1, ihl, ihr]
  | group _ ih => rw [bare, bare, ih]

theorem Alike.beq (h : e.Alike .equal e') : e == e' := by
  induction h with
  | literal hv => exact hv
  | unary hop _ ih => exact Bool.and_eq_true_iff.2 ⟨hop, ih⟩
  | binary _ hop _ ihl ihr =>
    exact Bool.and_eq_true_iff.2 ⟨ihl, Bool.and_eq_true_iff.2 ⟨hop, ihr⟩⟩
  | group _ ih => exact ih

end Expr

/-- A source with empty lines before it. -/
def movedDown (lines : Nat) (source : String) : String :=
  String.ofList (List.replicate lines '\n') ++ source

namespace Scan

theorem onward_replicate (line lines : Nat) (text : List Char) :
    onward line (List.replicate lines '\n' ++ text) = onward (line + lines) text := by
  induction lines generalizing line with
  | zero => rfl
  | succ lines ih =>
    rw [List.replicate_succ, List.cons_append, onward_newline, ih]
    congr 1
    omega

theorem tokens_movedDown (lines : Nat) (source : String) :
    (ofSource (movedDown lines source)).tokens =
      (ofSource source).tokens.map (Token.lower lines) := by
  have hcount : (List.replicate lines '\n' ++ source.toList).count '\n' =
      source.toList.count '\n' + lines := by
    rw [List.count_append, List.count_replicate_self, Nat.add_comm]
  rw [movedDown, ofSource, ofSource, String.toList_append, String.toList_ofList, ofText_eq_onward,
    ofText_eq_onward, onward_replicate, onward_add, hcount, List.map_append, ← Nat.add_assoc]
  rfl

end Scan

/-- Results are equal if their trees are, or their errors. -/
instance : BEq (Except ParseError Expr) where
  beq
    | .ok e, .ok e' => e == e'
    | .error x, .error x' => x == x'
    | _, _ => false

theorem Likeness.Result.beq {r r' : Except ParseError Expr} (h : Likeness.equal.Result r r') :
    r == r' := by
  cases h with
  | ok he => exact he.beq
  | error ht => exact ParseError.beq_iff.2 ⟨rfl, ht⟩

namespace Session

variable {limits : Limits} {ts us : List Token} {s t : Session}

/-- Two trees in step, or two errors of one cause at the same index. -/
theorem InStep.parse_agreeing (h : InStep limits ts us s t)
    (hl : Likeness.agreeing.Throughout ts us) :
    (∃ e e', s.parse.1 = .ok e ∧ t.parse.1 = .ok e' ∧
        e.InStep ts us s.position s.parse.2.position e') ∨
      ∃ cause x x', s.parse.1 = .error ⟨cause, x⟩ ∧ t.parse.1 = .error ⟨cause, x'⟩ ∧
        (sealed ts)[s.parse.2.position]? = some x ∧
        (sealed us)[s.parse.2.position]? = some x' := by
  obtain ⟨hstep, hres⟩ := h.parse hl
  generalize hs : s.parse.1 = r, ht : t.parse.1 = r' at hres
  cases hres with
  | @ok e e' he =>
    obtain ⟨as, ha, hts, hpos⟩ := h.left.exists_spells hs
    obtain ⟨bs, hb, hus, -⟩ := h.right.exists_spells ht
    rw [h.position_eq] at hus
    exact .inl ⟨e, e', rfl, rfl, hpos ▸ he.inStep (fun _ _ hv => hv) ha hb hts hus⟩
  | @error cause x x' hx =>
    have hx := h.left.getElem?_of_error hs
    have hx' := h.right.getElem?_of_error ht
    rw [hstep.position_eq] at hx'
    exact .inr ⟨cause, x, x', rfl, rfl, hx, hx'⟩

/-- The answers of a session and the place it goes to depend on the kinds of the tokens and on the
values of the numbers and strings among them. What else the tokens say shows in the trees only as
the tokens of operators, which come from the same indices: no tree depends on how its operators are
spelled, nor on the lines that its text stands on, and equal lists give equal results. -/
theorem run_agreeing (limits : Limits) (actions : List Action) :
    let session (ts : List Token) : Session := (start limits ts).run actions
    let tree? (ts : List Token) : Option Expr := (session ts).parse.1.toOption
    (∀ ts us : List Token, List.Forall₂ Token.Agrees ts us →
        let s := session ts
        let t := session us
        t.position = s.position ∧ t.isAtEnd = s.isAtEnd ∧
          t.parse.2.position = s.parse.2.position ∧
          ((∃ e e', s.parse.1 = .ok e ∧ t.parse.1 = .ok e' ∧
              e.InStep ts us s.position s.parse.2.position e') ∨
            ∃ cause x x', s.parse.1 = .error ⟨cause, x⟩ ∧ t.parse.1 = .error ⟨cause, x'⟩ ∧
              (sealed ts)[s.parse.2.position]? = some x ∧
              (sealed us)[s.parse.2.position]? = some x')) ∧
      (∀ ts us : List Token, List.Forall₂ Token.Respelled ts us →
        (tree? us).map Expr.bare = (tree? ts).map Expr.bare) ∧
      (∀ (source : String) (lines : Nat),
        (tree? (Scan.ofSource (movedDown lines source)).tokens).map Expr.bare =
          (tree? (Scan.ofSource source).tokens).map Expr.bare) ∧
      ∀ ts us : List Token, ts == us →
        (session us).position = (session ts).position ∧
          (session us).isAtEnd = (session ts).isAtEnd ∧
          (session ts).parse.1 == (session us).parse.1 := by
  intro session tree?
  have hbare (ts us : List Token) (h : List.Forall₂ Token.Respelled ts us) :
      (tree? us).map Expr.bare = (tree? ts).map Expr.bare := by
    have hl := Likeness.throughout_respelled h
    have hres := (((InStep.start limits ts us).run hl actions).parse hl).2
    generalize hr : ((start limits ts).run actions).parse.1 = r,
      hr' : ((start limits us).run actions).parse.1 = r' at hres
    simp only [tree?, session, hr, hr']
    cases hres with
    | ok he => exact congrArg some he.bare_eq.symm
    | error => rfl
  refine ⟨fun ts us h => ?_, hbare, fun source lines => ?_, fun ts us h => ?_⟩
  · have hl := Likeness.throughout_agreeing h
    have hstep := (InStep.start limits ts us).run hl actions
    exact ⟨hstep.position_eq, hstep.isAtEnd_eq hl, (hstep.parse hl).1.position_eq,
      hstep.parse_agreeing hl⟩
  · refine hbare _ _ ?_
    rw [Scan.tokens_movedDown]
    exact List.forall₂_map_right_iff.2 (List.forall₂_same.2 fun t _ => ⟨rfl, rfl⟩)
  · have hl := Likeness.throughout_equal h
    have hstep := (InStep.start limits ts us).run hl actions
    exact ⟨hstep.position_eq, hstep.isAtEnd_eq hl, (hstep.parse hl).2.beq⟩

/-- Behind an error and the recovery from it, one list has the negation of a zero and the other has
the other zero, under other lexemes and on another line. -/
theorem run_agreeing_negation :
    let zero : Number := .signed true .zero
    let ts : List Token := [.ofMark .plus, .ofMark .semicolon, .ofMark .minus,
      ⟨.number, "0", none, 1⟩]
    let us : List Token := [⟨.mark .plus, "plus", none, 3⟩, .ofMark .semicolon,
      ⟨.mark .minus, "neg", none, 4⟩, ⟨.number, "one", some (.number zero), 4⟩]
    let s := (start .standard ts).run [.parse, .synchronize]
    let t := (start .standard us).run [.parse, .synchronize]
    List.Forall₂ Token.Agrees ts us ∧ t.position = s.position ∧
      ∃ e e', s.parse.1 = .ok e ∧ t.parse.1 = .ok e' ∧ e.InStep ts us 2 4 e' := by
  intro zero ts us s t
  have h : List.Forall₂ Token.Agrees ts us := by decide +kernel
  have hstart : s.position = 2 := by decide +kernel
  have hstop : s.parse.2.position = 4 := by decide +kernel
  have htree : s.parse.1.toOption.isSome := by decide +kernel
  obtain ⟨hpos, -, -, ⟨e, e', hs, ht, hin⟩ | ⟨cause, x, x', hs, -⟩⟩ :=
    (run_agreeing .standard [.parse, .synchronize]).1 ts us h
  · exact ⟨h, hpos, e, e', hs, ht, hstart ▸ hstop ▸ hin⟩
  · rw [show s.parse.1 = _ from hs] at htree
    cases htree

end Session

end Lox
