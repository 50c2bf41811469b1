import Lox.Proofs.Sentinel
import Mathlib.Data.List.Forall2

/-!
# Sessions in step

Two sessions over lists that are alike throughout go in step: call by call they stand at the same
index and give like answers (`Session.InStep.act`). Trees that are alike and that stand at the same
index of two lists have each of their operators at the same index (`Expr.Alike.inStep`).
-/

namespace Lox

namespace Likeness

variable {L : Likeness} {ts us rest rest' stop : List Token} {t t' : Token}

theorem isEof_eq (h : L.token t t') : t.isEof = t'.isEof := by
  rw [Token.isEof, Token.isEof, L.kind_eq h]

theorem find?_isEof (h : List.Forall₂ L.token ts us) :
    Option.Rel L.token (ts.find? Token.isEof) (us.find? Token.isEof) := by
  induction h with
  | nil => exact .none
  | cons ht _ ih =>
    simp only [List.find?_cons, ← isEof_eq ht]
    split
    · exact .some ht
    · exact ih

theorem takeWhile_isEof (h : List.Forall₂ L.token ts us) :
    List.Forall₂ L.token (ts.takeWhile (!·.isEof)) (us.takeWhile (!·.isEof)) := by
  induction h with
  | nil => exact .nil
  | cons ht _ ih =>
    simp only [List.takeWhile_cons, ← isEof_eq ht]
    split
    · exact .cons ht ih
    · exact .nil

/-- Lists that are alike token by token, and in the token for the end of input. -/
structure Throughout (L : Likeness) (ts us : List Token) : Prop where
  tokens : List.Forall₂ L.token ts us
  final : L.token (Session.finalToken ts) (Session.finalToken us)

/-- Where no token is for the end of input, the lines of the last tokens make it. -/
theorem throughout_of_forall₂ (h : List.Forall₂ L.token ts us)
    (hlast : L.token (.eof ((ts.getLast?.map Token.line).getD 1))
      (.eof ((us.getLast?.map Token.line).getD 1))) : L.Throughout ts us := by
  refine ⟨h, ?_⟩
  have hfind := find?_isEof h
  unfold Session.finalToken
  generalize ts.find? Token.isEof = x, us.find? Token.isEof = y at hfind
  cases hfind with
  | some ht => exact ht
  | none => exact hlast

theorem exists_abreast {c c' : Setting} (h : List.Forall₂ L.token rest rest')
    (hf : L.token c.final c'.final) (hs : stop <:+ rest) :
    ∃ stop', L.Abreast c c' stop stop' rest rest' := by
  induction h with
  | nil =>
    obtain rfl := List.suffix_nil.1 hs
    exact ⟨[], .stop (.final hf)⟩
  | @cons t t' ts us ht _ ih =>
    rcases List.suffix_cons_iff.1 hs with rfl | hs
    · exact ⟨t' :: us, .stop (.token ht)⟩
    · obtain ⟨stop', ha⟩ := ih hs
      exact ⟨stop', .step ht ha⟩

end Likeness

namespace Session

variable {L : Likeness} {limits : Limits} {ts us : List Token} {s t : Session}

/-- Two sessions at the same place, each in its list. -/
structure InStep (limits : Limits) (ts us : List Token) (s t : Session) : Prop where
  left : s.Over limits ts
  right : t.Over limits us
  position_eq : t.position = s.position

namespace InStep

theorem start (limits : Limits) (ts us : List Token) :
    InStep limits ts us (.start limits ts) (.start limits us) :=
  ⟨over_start limits ts, over_start limits us, rfl⟩

theorem final_alike (h : InStep limits ts us s t) (hl : L.Throughout ts us) :
    L.token s.setting.final t.setting.final := by
  rw [h.left.setting_eq, h.right.setting_eq]
  exact hl.final

theorem rest_alike (h : InStep limits ts us s t) (hl : L.Throughout ts us) :
    List.Forall₂ L.token s.rest t.rest := by
  rw [rest, rest, h.left.tokens_eq, h.right.tokens_eq, h.position_eq]
  exact List.forall₂_drop _ (Likeness.takeWhile_isEof hl.tokens)

theorem peek_alike (h : InStep limits ts us s t) (hl : L.Throughout ts us) :
    L.token s.peek t.peek := by
  have hrest := h.rest_alike hl
  unfold peek
  generalize s.rest = rest, t.rest = rest' at hrest
  cases hrest with
  | nil => exact h.final_alike hl
  | cons ht _ => exact ht

theorem isAtEnd_eq (h : InStep limits ts us s t) (hl : L.Throughout ts us) :
    t.isAtEnd = s.isAtEnd :=
  (Likeness.isEof_eq (h.peek_alike hl)).symm

/-- Two sessions that are in step stay so, and give like answers. -/
theorem act (h : InStep limits ts us s t) (hl : L.Throughout ts us) (a : Action) :
    InStep limits ts us (s.act a) (t.act a) ∧
      Option.Rel L.Result (s.answer a) (t.answer a) := by
  have hrest := h.rest_alike hl
  obtain ⟨stop', habreast⟩ :=
    Likeness.exists_abreast hrest (h.final_alike hl) (s.suffix_act a)
  have hlimits : t.setting.limits = s.setting.limits := by
    rw [h.left.setting_eq, h.right.setting_eq]
  obtain ⟨hstop, hanswer⟩ := act_alike a hlimits habreast
  refine ⟨⟨h.left.act a, h.right.act a, ?_⟩, hanswer⟩
  have hcount := habreast.length_add
  have hlen := hrest.length_eq
  have hs := h.left.position_add_length_rest
  have hs' := (h.left.act a).position_add_length_rest
  have ht := h.right.position_add_length_rest
  have ht' := (h.right.act a).position_add_length_rest
  have hp := h.position_eq
  rw [hstop] at ht'
  omega

theorem run (h : InStep limits ts us s t) (hl : L.Throughout ts us) (actions : List Action) :
    InStep limits ts us (s.run actions) (t.run actions) := by
  induction actions generalizing s t with
  | nil => exact h
  | cons a as ih => exact ih (h.act hl a).1

theorem parse (h : InStep limits ts us s t) (hl : L.Throughout ts us) :
    InStep limits ts us s.parse.2 t.parse.2 ∧ L.Result s.parse.1 t.parse.1 := by
  obtain ⟨hstep, hanswer⟩ := h.act hl .parse
  cases hanswer with
  | some hres => exact ⟨hstep, hres⟩

end InStep

end Session

namespace Expr

/-- Trees of one shape that stand in two lists from one index to another: the literals are equal,
and the operators are of the same kinds and stand at the same indices. -/
inductive InStep (ts us : List Token) : Nat → Nat → Expr → Expr → Prop
  | literal {i : Nat} {t t' : Token} {v v' : Value} : ts[i]? = some t → us[i]? = some t' →
      t.value? = some v → t'.value? = some v' → v == v' →
      InStep ts us i (i + 1) (.literal v) (.literal v')
  | unary {i j : Nat} {op op' : Token} {e e' : Expr} : ts[i]? = some op → us[i]? = some op' →
      op.kind = op'.kind → InStep ts us (i + 1) j e e' →
      InStep ts us i j (.unary op e) (.unary op' e')
  | binary {i k j : Nat} {op op' : Token} {left left' right right' : Expr} :
      InStep ts us i k left left' → ts[k]? = some op → us[k]? = some op' → op.kind = op'.kind →
      InStep ts us (k + 1) j right right' →
      InStep ts us i j (.binary left op right) (.binary left' op' right')
  | group {i j : Nat} {e e' : Expr} : InStep ts us (i + 1) j e e' →
      InStep ts us i (j + 1) (.group e) (.group e')

variable {L : Likeness} {e e' : Expr} {as bs ts us : List Token} {i : Nat} {t : Token}

theorem Alike.length_eq (h : e.Alike L e') (ha : e.Spells as) (hb : e'.Spells bs) :
    as.length = bs.length := by
  induction h generalizing as bs with
  | literal =>
    cases ha
    cases hb
    rfl
  | unary _ _ ih =>
    cases ha with
    | unary ha =>
      cases hb with
      | unary hb => simp [ih ha hb]
  | binary _ _ _ ihl ihr =>
    cases ha with
    | binary hl hr =>
      cases hb with
      | binary hl' hr' => simp [ihl hl hl', ihr hr hr']
  | group _ ih =>
    cases ha with
    | group _ _ ha =>
      cases hb with
      | group _ _ hb => simp [ih ha hb]

theorem prefix_append_drop (h : as ++ bs <+: ts.drop i) :
    as <+: ts.drop i ∧ bs <+: ts.drop (i + as.length) := by
  refine ⟨(List.prefix_append as bs).trans h, ?_⟩
  obtain ⟨after, hafter⟩ := h
  rw [← List.drop_drop, ← hafter, List.append_assoc, List.drop_left]
  exact List.prefix_append bs after

theorem prefix_cons_drop (h : t :: as <+: ts.drop i) :
    ts[i]? = some t ∧ as <+: ts.drop (i + 1) := by
  have hcons : [t] ++ as <+: ts.drop i := h
  refine ⟨?_, (prefix_append_drop hcons).2⟩
  obtain ⟨after, hafter⟩ := h
  rw [← List.head?_drop, ← hafter, List.cons_append, List.head?_cons]

/-- Trees that are alike are in step wherever the tokens of both begin at the same index. -/
theorem Alike.inStep (hv : ∀ v v', L.value v v' → v == v') (h : e.Alike L e')
    (ha : e.Spells as) (hb : e'.Spells bs) (hts : as <+: ts.drop i) (hus : bs <+: us.drop i) :
    InStep ts us i (i + as.length) e e' := by
  induction h generalizing as bs i with
  | literal hvv =>
    cases ha with
    | literal ha =>
      cases hb with
      | literal hb =>
        exact .literal (prefix_cons_drop hts).1 (prefix_cons_drop hus).1
          (Token.value?_eq_some_iff.2 ha) (Token.value?_eq_some_iff.2 hb) (hv _ _ hvv)
  | unary hop _ ih =>
    cases ha with
    | @unary _ _ as ha =>
      cases hb with
      | unary hb =>
        obtain ⟨ht, hts⟩ := prefix_cons_drop hts
        obtain ⟨hu, hus⟩ := prefix_cons_drop hus
        have hin := ih ha hb hts hus
        rw [show i + 1 + as.length = i + (as.length + 1) by omega] at hin
        exact .unary ht hu (L.kind_eq hop) hin
  | binary hleft hop _ ihl ihr =>
    cases ha with
    | @binary _ _ _ ls rs hl hr =>
      cases hb with
      | binary hl' hr' =>
        obtain ⟨hls, hts⟩ := prefix_append_drop hts
        obtain ⟨hls', hus⟩ := prefix_append_drop hus
        rw [← hleft.length_eq hl hl'] at hus
        obtain ⟨ht, hrs⟩ := prefix_cons_drop hts
        obtain ⟨hu, hrs'⟩ := prefix_cons_drop hus
        have hin := ihr hr hr' hrs hrs'
        rw [show i + ls.length + 1 + rs.length = i + (ls.length + (rs.length + 1)) by omega] at hin
        rw [List.length_append, List.length_cons]
        exact .binary (ihl hl hl' hls hls') ht hu (L.kind_eq hop) hin
  | group _ ih =>
    cases ha with
    | @group opening closing _ as _ _ ha =>
      cases hb with
      | group _ _ hb =>
        rw [List.cons_append] at hts hus
        have hin := ih ha hb (prefix_append_drop (prefix_cons_drop hts).2).1
          (prefix_append_drop (prefix_cons_drop hus).2).1
        rw [List.length_append, List.length_cons, List.length_singleton, ← Nat.add_assoc,
          show i + (as.length + 1) = i + 1 + as.length by omega]
        exact .group hin

end Expr

namespace Session

variable {L : Likeness} {limits : Limits} {ts us : List Token} {s t : Session}

/-- The tokens that a parse takes spell its tree. -/
theorem Over.exists_spells (h : s.Over limits ts) {e : Expr} (hp : s.parse.1 = .ok e) :
    ∃ as, e.Spells as ∧ as <+: ts.drop s.position ∧
      s.parse.2.position = s.position + as.length := by
  obtain ⟨n, hl, -, hs⟩ := parse_eq_ok_iff.1 (Prod.ext hp rfl : s.parse = (.ok e, s.parse.2))
  have hl := h.leads_iff.1 hl
  refine ⟨_, hl.spells, List.take_prefix _ _, ?_⟩
  rw [hs, List.length_take, Nat.min_eq_left hl.le_length]

theorem Over.getElem?_of_error (h : s.Over limits ts) {x : ParseError} (hp : s.parse.1 = .error x) :
    (sealed ts)[s.parse.2.position]? = some x.token := by
  rw [← peek_of_parse (Prod.ext hp rfl : s.parse = (.error x, s.parse.2))]
  exact (h.act .parse).getElem?_sealed

end Session

end Lox
