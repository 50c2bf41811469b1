import Lox.Proofs.Reports

/-!
# What a call depends on

A call sees the tokens that it takes and the one where it stops. Two sessions that see alike tokens
from where they stand go alike (`Session.act_alike`), and so two that see the same tokens give the
same answer and make the same reports, whatever the calls before them, the tokens before them and
the tokens behind what they see (`Session.act_of_same_tokens`).
-/

namespace Lox

variable {L : Likeness}

namespace Session

/-- What a call gives back. -/
def answer (s : Session) : Action → Option (Except ParseError Expr)
  | .parse => some s.parse.1
  | .synchronize => none

section Alike

variable {s t : Session} {c c' : Setting} {stop' : List Token}

theorem parse_alike (hl : t.setting.limits = s.setting.limits)
    (h : L.Abreast s.setting t.setting s.parse.2.rest stop' s.rest t.rest) :
    t.parse.2.rest = stop' ∧ L.Result s.parse.1 t.parse.1 := by
  obtain ⟨f, hr, hrest, -⟩ := s.reads_parse
  rw [hrest] at h
  obtain ⟨result', reports', hres, hr'⟩ := hr.alike hl t.reports (.chain _) h
  obtain ⟨f', ht, hrest', -⟩ := t.reads_parse
  have heq : (t.parse.1, f') = (result', f.moved stop' reports') :=
    ht.eq_parse.trans hr'.eq_parse.symm
  obtain ⟨hresult, rfl⟩ := Prod.mk.inj heq
  exact ⟨hrest', hresult ▸ hres⟩

theorem statementRest_alike {ts ts' : List Token} {taken taken' : Token}
    (hk : taken.kind = taken'.kind)
    (h : L.Abreast c c' (ts.drop (statementRest taken ts)) stop' ts ts') :
    ts'.drop (statementRest taken' ts') = stop' := by
  induction ts generalizing taken taken' ts' with
  | nil =>
    rw [List.drop_nil] at h
    obtain rfl := h.eq_stop
    cases h.ahead
    rfl
  | cons t ts ih =>
    simp only [statementRest] at h
    split_ifs at h with hstop
    · obtain rfl := h.eq_stop
      cases h.ahead with
      | token ht =>
        rw [hk, L.kind_eq ht] at hstop
        rw [statementRest, if_pos hstop, List.drop_zero]
    · rw [List.drop_succ_cons] at h
      obtain ⟨t', us, rfl, ht, h⟩ := h.uncons (List.drop_suffix _ _)
      rw [hk, L.kind_eq ht] at hstop
      rw [statementRest, if_neg hstop]
      exact ih (L.kind_eq ht) h

theorem synchronize_eq_self (h : s.rest = []) : s.synchronize = s := by
  simp only [synchronize, h]

theorem rest_synchronize {t : Token} {ts : List Token} (h : s.rest = t :: ts) :
    s.synchronize.rest = ts.drop (statementRest t ts) := by
  have hts : s.tokens.drop (s.position + 1) = ts := by
    rw [← List.drop_drop, ← rest, h, List.drop_one, List.tail_cons]
  simp only [synchronize, h]
  rw [rest, ← List.drop_drop, hts]

theorem synchronize_alike
    (h : L.Abreast s.setting t.setting s.synchronize.rest stop' s.rest t.rest) :
    t.synchronize.rest = stop' := by
  rcases hs : s.rest with _ | ⟨u, us⟩
  · rw [synchronize_eq_self hs, hs] at h
    have ht : t.rest = [] := by
      generalize t.rest = ts at h
      cases h.ahead
      rfl
    rw [synchronize_eq_self ht, h.eq_stop]
  · rw [hs, rest_synchronize hs] at h
    obtain ⟨u', us', ht, hu, h⟩ := h.uncons (List.drop_suffix _ _)
    rw [rest_synchronize ht, statementRest_alike (L.kind_eq hu) h]

/-- Two sessions that see alike tokens go alike. -/
theorem act_alike (a : Action) (hl : t.setting.limits = s.setting.limits)
    (h : L.Abreast s.setting t.setting (s.act a).rest stop' s.rest t.rest) :
    (t.act a).rest = stop' ∧ Option.Rel L.Result (s.answer a) (t.answer a) := by
  cases a with
  | parse =>
    obtain ⟨hrest, hres⟩ := parse_alike hl h
    exact ⟨hrest, .some hres⟩
  | synchronize => exact ⟨synchronize_alike h, .none⟩

end Alike

theorem reports_act (s : Session) (a : Action) :
    (s.act a).reports = s.reports ++ (s.answer a).elim [] Rule.reported := by
  cases a with
  | parse => exact reports_of_parse rfl
  | synchronize =>
    rw [answer, Option.elim_none, List.append_nil]
    exact reports_synchronize s

theorem suffix_act (s : Session) (a : Action) : (s.act a).rest <:+ s.rest := by
  cases a with
  | parse =>
    obtain ⟨f, hr, hrest, -⟩ := s.reads_parse
    show s.parse.2.rest <:+ _
    rw [hrest]
    exact hr.suffix
  | synchronize =>
    show s.synchronize.rest <:+ _
    rcases hs : s.rest with _ | ⟨t, ts⟩
    · have hrest : s.synchronize.rest = [] := by rw [synchronize_eq_self hs, hs]
      exact hrest ▸ List.suffix_rfl
    · rw [rest_synchronize hs]
      exact (List.drop_suffix _ _).trans (List.suffix_cons _ _)

namespace Over

variable {limits : Limits} {tokens : List Token} {s : Session}

theorem position_add_length_rest (h : s.Over limits tokens) :
    s.position + s.rest.length = (tokens.takeWhile (!·.isEof)).length := by
  have hle := h.position_le
  rw [← h.tokens_eq, rest, List.length_drop]
  omega

theorem take_append_rest (h : s.Over limits tokens) :
    tokens.take s.position ++ s.rest = tokens.takeWhile (!·.isEof) := by
  obtain ⟨after, hafter⟩ : s.tokens <+: tokens := h.tokens_eq ▸ List.takeWhile_prefix _
  have hcut : tokens.take s.position = s.tokens.take s.position := by
    rw [← hafter, List.take_append_of_le_length h.position_le]
  rw [hcut, rest, List.take_append_drop, h.tokens_eq]

/-- A call takes the tokens that its position moves past. -/
theorem rest_act (h : s.Over limits tokens) (a : Action) :
    s.position ≤ (s.act a).position ∧
      (s.act a).rest = s.rest.drop ((s.act a).position - s.position) := by
  have hs := h.position_add_length_rest
  have ha := (h.act a).position_add_length_rest
  have hle := (s.suffix_act a).length_le
  refine ⟨by omega, ?_⟩
  rw [List.suffix_iff_eq_drop.1 (s.suffix_act a)]
  congr 1
  omega

theorem rest_eq (h : s.Over limits tokens) :
    s.rest = (tokens.drop s.position).takeWhile (!·.isEof) := by
  obtain ⟨after, hd, heof⟩ := h.drop_eq
  have hafter : after.takeWhile (!·.isEof) = [] := by
    rcases after with _ | ⟨t, ts⟩
    · rfl
    · simp [heof t rfl]
  rw [hd, List.takeWhile_append_of_pos h.not_isEof, hafter, List.append_nil]

theorem final_eq (h : s.Over limits tokens) {t : Token}
    (ht : (tokens.drop s.position).find? Token.isEof = some t) : s.setting.final = t := by
  have hno : (tokens.take s.position).find? Token.isEof = none := by
    refine List.find?_eq_none.2 fun u hu => ?_
    have hmem : u ∈ tokens.takeWhile (!·.isEof) :=
      h.take_append_rest ▸ List.mem_append_left _ hu
    simpa using List.all_eq_true.1 List.all_takeWhile u hmem
  have hfind : tokens.find? Token.isEof = some t := by
    rw [← List.take_append_drop s.position tokens, List.find?_append, hno, Option.none_or, ht]
  rw [h.setting_eq, finalToken, hfind, Option.getD_some]

end Over

end Session

/-- Where two lists have the same tokens up to one of them, they are abreast that far. -/
theorem Likeness.abreast_of_take_eq {c c' : Setting} {us vs : List Token} {n : Nat}
    (hc : ∀ t, us.find? Token.isEof = some t → c.final = t)
    (hc' : ∀ t, vs.find? Token.isEof = some t → c'.final = t)
    (hn : n < us.length) (hle : n ≤ (us.takeWhile (!·.isEof)).length)
    (h : us.take (n + 1) = vs.take (n + 1)) :
    Likeness.same.Abreast c c' ((us.takeWhile (!·.isEof)).drop n)
      ((vs.takeWhile (!·.isEof)).drop n) (us.takeWhile (!·.isEof)) (vs.takeWhile (!·.isEof)) := by
  induction us generalizing vs n with
  | nil => cases hn
  | cons u us ih =>
    rcases vs with _ | ⟨v, vs⟩
    · cases h
    obtain ⟨rfl, htake⟩ := List.cons.inj h
    by_cases hu : u.isEof
    -- nothing is left before this token, so that it is what both look at next
    · have hfinal : c.final = c'.final := by rw [hc u (by simp [hu]), hc' u (by simp [hu])]
      simpa [hu] using .stop (.final hfinal)
    · have hcut : ∀ ws, (u :: ws).takeWhile (!·.isEof) = u :: ws.takeWhile (!·.isEof) := by
        simp [hu]
      rw [hcut] at hle ⊢
      rw [hcut]
      cases n with
      | zero => exact .stop (.token rfl)
      | succ n =>
        rw [List.find?_cons_of_neg hu] at hc hc'
        exact .step rfl (ih hc hc' (Nat.lt_of_succ_lt_succ hn) (Nat.le_of_succ_le_succ hle) htake)

namespace Session

theorem Over.act_same {limits : Limits} {ts us : List Token} {s t : Session} {a : Action} {n : Nat}
    (hs : s.Over limits ts) (ht : t.Over limits us) (hn : s.position + n = (s.act a).position)
    (hq : (s.act a).position < ts.length)
    (h : (ts.drop s.position).take (n + 1) = (us.drop t.position).take (n + 1)) :
    (t.act a).position = t.position + n ∧ t.answer a = s.answer a := by
  have hrest := (hs.rest_act a).2
  rw [← hn, Nat.add_sub_cancel_left] at hrest
  have hlen := hs.position_add_length_rest
  have hlen' := (hs.act a).position_add_length_rest
  have habreast := Likeness.abreast_of_take_eq (fun _ => hs.final_eq) (fun _ => ht.final_eq)
    (by simp only [List.length_drop]; omega) (by rw [← hs.rest_eq]; omega) h
  rw [← hs.rest_eq, ← ht.rest_eq, ← hrest] at habreast
  obtain ⟨hstop, hrel⟩ := act_alike a (by rw [hs.setting_eq, ht.setting_eq]) habreast
  constructor
  · have hcount := habreast.length_add
    have hpos := ht.position_add_length_rest
    have hpos' := (ht.act a).position_add_length_rest
    rw [hstop] at hpos'
    omega
  · generalize s.answer a = r, t.answer a = r' at hrel
    cases hrel with
    | some hr => rw [hr.eq]
    | none => rfl

/-- What a call answers and reports and how far it goes depends on the tokens from where it starts
to where it stops, that one included. -/
theorem act_of_same_tokens (limits : Limits) (ts us : List Token) (as bs : List Action)
    (a : Action) :
    let s := (start limits ts).run as
    let t := (start limits us).run bs
    let n := (s.act a).position - s.position
    (s.act a).position < ts.length →
      (ts.drop s.position).take (n + 1) = (us.drop t.position).take (n + 1) →
      s.position ≤ (s.act a).position ∧ (t.act a).position = t.position + n ∧
        t.answer a = s.answer a ∧
        ∃ new, (s.act a).reports = s.reports ++ new ∧ (t.act a).reports = t.reports ++ new := by
  intro s t n hq h
  have hs : s.Over limits ts := over_run limits ts as
  have ht : t.Over limits us := over_run limits us bs
  have hle := (hs.rest_act a).1
  obtain ⟨hpos, hanswer⟩ := hs.act_same ht (Nat.add_sub_cancel' hle) hq h
  exact ⟨hle, hpos, hanswer, _, s.reports_act a, by rw [reports_act, hanswer]⟩

/-- A parse that failed inside a sum, and the tokens before, leave no trace in the next parse. -/
theorem act_of_same_tokens_negation :
    let ts : List Token := [.ofKeyword .nilWord, .ofMark .plus, .ofMark .semicolon,
      .ofMark .minus, .ofKeyword .nilWord, .ofMark .rightParen]
    let us : List Token := [.ofMark .minus, .ofKeyword .nilWord, .ofMark .rightParen,
      .ofMark .plus]
    let s := (start .standard ts).run [.parse, .synchronize]
    let t := (start .standard us).run []
    s.position = 3 ∧ (s.act .parse).position = 5 ∧ (t.act .parse).position = 2 ∧
      t.answer .parse = s.answer .parse := by
  intro ts us s t
  have hs : s.position = 3 := by decide +kernel
  have ha : (s.act .parse).position = 5 := by decide +kernel
  obtain ⟨-, hpos, hanswer, -⟩ := act_of_same_tokens .standard ts us [.parse, .synchronize] []
    .parse (by decide +kernel) (by decide +kernel)
  exact ⟨hs, ha, hpos.trans (by decide +kernel), hanswer⟩

end Session

end Lox
