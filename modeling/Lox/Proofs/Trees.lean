import Lox.Proofs.Sessions

/-!
# Which tree a parse ends with

Tokens lead with one tree at most, however many of them it takes (`Expr.Leads.unique`), so that a
tree which a parse ends with is the longest there is, and a tree that the tokens spell is the one
that a parse ends with unless the limits stop it.
-/

namespace Lox

theorem Limits.admits_unlimited (e : Expr) (n h : Nat) : unlimited.Admits e n h := by
  induction e generalizing n h with
  | literal => trivial
  | unary _ _ ih | group _ ih => exact ⟨Bool.false_ne_true, Bool.false_ne_true, ih _ _⟩
  | binary _ _ _ ihl ihr => exact ⟨ihl _ _, Bool.false_ne_true, ihr _ _⟩

namespace Expr

theorem closed_expression_iff {rest : List Token} :
    Closed Rule.expression.rank rest ↔ ∀ t ∈ rest.head?, ¬ t.kind.isBinaryOperator := by
  constructor
  · intro h t ht hb
    obtain ⟨l, hl⟩ := Option.isSome_iff_exists.1 hb
    exact Nat.not_lt.2 (Rule.rank_le _) (h t ht l hl)
  · intro h t ht l hl
    exact absurd (by simp [Kind.isBinaryOperator, hl]) (h t ht)

theorem leads_of_spells {e : Expr} {ts rest : List Token} (hg : e.Grammatical) (hs : e.Spells ts)
    (hr : ∀ t ∈ rest.head?, ¬ t.kind.isBinaryOperator) : e.Leads (ts ++ rest) ts.length :=
  ⟨hg, by simp, by simpa using hs, by simpa using closed_expression_iff.2 hr⟩

theorem Leads.unique {e e' : Expr} {ts : List Token} {n n' : Nat} (h : e.Leads ts n)
    (h' : e'.Leads ts n') : e = e' ∧ n = n' := by
  let c : Setting := ⟨.unlimited, Token.eof 1⟩
  have hf : ∀ {e n}, e.Leads ts n →
      Rule.Reads c .expression ⟨ts, 0, 0, []⟩ (.ok e, ⟨ts.drop n, 0, 0, []⟩) := fun h =>
    (Rule.finds_expression h.spells h.grammatical (List.take_append_drop _ ts).symm h.closed).1
      (Limits.admits_unlimited _ _ _)
  have heq := (hf h).eq_parse.trans (hf h').eq_parse.symm
  simp only [Prod.mk.injEq, Except.ok.injEq, ParseState.mk.injEq] at heq
  have hlen := congrArg List.length heq.2.1
  have hle := h.le_length
  have hle' := h'.le_length
  simp only [List.length_drop] at hlen
  exact ⟨heq.1, by omega⟩

/-- A tree that leads the tokens is the longest that they begin with. -/
theorem Leads.longest {e e' : Expr} {ts : List Token} {n m : Nat} (h : e.Leads ts n)
    (hm : m ≤ ts.length) (hg : e'.Grammatical) (hs : e'.Spells (ts.take m)) : m ≤ n := by
  refine Nat.le_of_not_lt fun hlt => ?_
  have h' : e'.Leads (ts.take m) m := by
    refine ⟨hg, by simp [hm], by rwa [List.take_take, Nat.min_self], ?_⟩
    simp [Closed]
  have he : e.Leads (ts.take m) n := by
    refine ⟨h.grammatical, by simp only [List.length_take]; omega, ?_, ?_⟩
    · rw [List.take_take, Nat.min_eq_left (Nat.le_of_lt hlt)]
      exact h.spells
    · intro t ht
      rw [List.drop_take, List.head?_take, if_neg (by omega)] at ht
      exact h.closed t ht
  have := (he.unique h').2
  omega

end Expr

namespace Session

theorem finalToken_isEof (tokens : List Token) : (finalToken tokens).isEof := by
  unfold finalToken
  rcases hf : tokens.find? Token.isEof with _ | t
  · rfl
  · exact List.find?_some hf

theorem Over.final_isEof {limits : Limits} {tokens : List Token} {s : Session}
    (h : s.Over limits tokens) : s.setting.final.isEof := by
  rw [h.setting_eq]
  exact finalToken_isEof tokens

/-- Where the tokens go on with no operator, the session does not stand at one. -/
theorem not_isBinaryOperator_peek {s : Session} (hf : s.setting.final.isEof)
    (h : Closed Rule.expression.rank s.rest) : ¬ s.peek.kind.isBinaryOperator := by
  rw [Expr.closed_expression_iff] at h
  unfold peek
  rcases hr : s.rest with _ | ⟨t, ts⟩
  · simp only [Token.isEof, beq_iff_eq] at hf
    simp [hf, Kind.isBinaryOperator, Kind.level?]
  · exact h t (by simp [hr])

/-- A parse ends with the longest tree of the grammar that the tokens it takes spell. -/
theorem parse_longest_tree (limits : Limits) (tokens : List Token) (actions : List Action)
    {e : Expr} {s' : Session}
    (h : ((start limits tokens).run actions).parse = (.ok e, s')) :
    let s := (start limits tokens).run actions
    (s.position ≤ s'.position ∧ s'.position ≤ tokens.length ∧
        e.Spells ((tokens.drop s.position).take (s'.position - s.position))) ∧
      e.Grammatical ∧ ¬ s'.peek.kind.isBinaryOperator ∧
      ∀ (e' : Expr) (q : Nat), s.position ≤ q → q ≤ tokens.length → e'.Grammatical →
        e'.Spells ((tokens.drop s.position).take (q - s.position)) → q ≤ s'.position := by
  intro s
  have ho : s.Over limits tokens := over_run limits tokens actions
  obtain ⟨n, hl, -, rfl⟩ := parse_eq_ok_iff.1 h
  have hlt := ho.leads_iff.1 hl
  have hp := ho.position_le
  have hn := hlt.le_length
  rw [ho.tokens_eq] at hp
  have hp := Nat.le_trans hp (List.takeWhile_sublist _).length_le
  simp only [List.length_drop] at hn
  refine ⟨⟨Nat.le_add_right _ _, ?_, ?_⟩, hl.grammatical, ?_, fun e' q hpq hq hg hsp => ?_⟩
  · show s.position + n ≤ _
    omega
  · show e.Spells ((tokens.drop s.position).take (s.position + n - s.position))
    rw [Nat.add_sub_cancel_left]
    exact hlt.spells
  · refine not_isBinaryOperator_peek ho.final_isEof ?_
    rw [rest, ← List.drop_drop]
    exact hl.closed
  · have := hlt.longest (by simp only [List.length_drop]; omega) hg hsp
    show q ≤ s.position + n
    omega

/-- Behind a semicolon a product binds tighter than the difference. -/
theorem parse_longest_tree_difference :
    let tokens : List Token := [.ofMark .semicolon, .ofKeyword .nilWord, .ofMark .minus,
      .ofKeyword .nilWord, .ofMark .star, .ofKeyword .nilWord]
    let s := (start .standard tokens).run [.synchronize]
    ∃ e s', s.parse = (.ok e, s') ∧ s.position = 1 ∧ s'.position = 6 ∧ e.Grammatical ∧
      e.Spells (tokens.drop 1) := by
  intro tokens s
  let e : Expr := .binary (.literal .nil) (.ofMark .minus)
    (.binary (.literal .nil) (.ofMark .star) (.literal .nil))
  have hnil : (Expr.literal .nil).Spells [.ofKeyword .nilWord] := .literal (.nil rfl)
  have hg : e.Grammatical :=
    ⟨.term, rfl, Nat.zero_le _, by decide, trivial, .factor, rfl, Nat.zero_le _, by decide,
      trivial, trivial⟩
  have hl : e.Leads s.rest 5 :=
    ⟨hg, by decide, .binary hnil (.binary hnil hnil), closed_nil _⟩
  have ha : Limits.standard.Admits e 0 0 :=
    ⟨trivial, by decide, trivial, by decide, trivial⟩
  have h := parse_of_admits hl ha
  have hlong := parse_longest_tree .standard tokens [.synchronize] h
  exact ⟨e, _, h, rfl, rfl, hg, hlong.1.2.2⟩

theorem leads_start (limits : Limits) {e : Expr} {ts rest : List Token} (hg : e.Grammatical)
    (hs : e.Spells ts) (hr : ∀ t ∈ rest.head?, ¬ t.kind.isBinaryOperator) :
    e.Leads (start limits (ts ++ rest)).rest ts.length := by
  rw [(over_start limits (ts ++ rest)).leads_iff]
  exact Expr.leads_of_spells hg hs hr

/-- What the tokens spell before anything but an operator is the tree that a parse ends with if the
limits admit it, and no other tree; if they do not, the parse runs into one of them. -/
theorem parse_spelled {e : Expr} {ts rest : List Token} (hg : e.Grammatical) (hs : e.Spells ts)
    (hr : ∀ t ∈ rest.head?, ¬ t.kind.isBinaryOperator) :
    let s := start .standard (ts ++ rest)
    (Limits.standard.Admits e 0 0 → s.parse = (.ok e, { s with position := ts.length })) ∧
      (¬ Limits.standard.Admits e 0 0 → ∃ t s', s.parse = (.error ⟨.tooDeeplyNested, t⟩, s') ∧
        s'.reports = [.parse ⟨.tooDeeplyNested, t⟩]) ∧
      ∀ e' : Expr, e'.Grammatical → e'.Spells ts → e' = e := by
  intro s
  have hl : e.Leads s.rest ts.length := leads_start _ hg hs hr
  refine ⟨fun ha => ?_, parse_of_not_admits hl, fun e' hg' hs' => ?_⟩
  · rw [parse_of_admits hl ha]
    simp [s, start]
  · exact ((Expr.leads_of_spells hg' hs' hr).unique (Expr.leads_of_spells hg hs hr)).1

/-- The parse goes on past the brackets and stops before a second expression. -/
theorem parse_spelled_negation :
    let ts : List Token := [.ofMark .bang, .ofMark .leftParen, .ofKeyword .nilWord,
      .ofMark .rightParen]
    let e : Expr := .unary (.ofMark .bang) (.group (.literal .nil))
    e.Grammatical ∧ e.Spells ts ∧
      ((start .standard (ts ++ [.ofKeyword .nilWord])).parse.1 = .ok e) := by
  intro ts e
  have hnil : (Expr.literal .nil).Spells [.ofKeyword .nilWord] := .literal (.nil rfl)
  have hg : e.Grammatical := ⟨rfl, by decide, trivial⟩
  have hs : e.Spells ts := .unary (.group rfl rfl hnil)
  have hr : ∀ t ∈ [Token.ofKeyword .nilWord].head?, ¬ t.kind.isBinaryOperator := by
    rintro t ⟨rfl⟩
    exact Bool.false_ne_true
  have ha : Limits.standard.Admits e 0 0 := ⟨by decide, by decide, by decide, by decide, trivial⟩
  exact ⟨hg, hs, by rw [(parse_spelled hg hs hr).1 ha]⟩

end Session

end Lox
