import Lox.Proofs.Soundness

/-!
# Every tree of the grammar is found

Where the tokens spell a tree of the grammar and no operator follows, a rule that reads trees of
that kind ends with it and takes just these tokens, if the limits admit it, and runs into a limit
otherwise (`Spells.finds`).

The limits look at the counters alone. `Limits.Admits` says what they make of a tree below given
counts: one level for a prefix operator or a group, and for the operands of a chain one level for
each operator of the chain that stands before them.
-/

namespace Lox

namespace Expr

/-- How many operators of a level join the operands of the outermost chain. -/
def folds (l : Option Level) : Expr → Nat
  | binary left op _ => if op.kind.level? = l then left.folds l + 1 else 0
  | _ => 0

theorem folds_of_tier_lt {e : Expr} {l : Level} (h : e.tier < (Rule.chain l).rank) :
    e.folds (some l) = 0 := by
  unfold folds
  split
  · refine if_neg fun hl => ?_
    rw [tier_binary hl] at h
    exact Nat.lt_irrefl _ h
  · rfl

end Expr

/-- Whether the counters stay within the limits where a tree is read and they stand at `n` and
`h`. -/
def Limits.Admits (L : Limits) : Expr → (n h : Nat) → Prop
  | .literal _, _, _ => True
  | .unary _ e, n, h => ¬ reached L.nesting n ∧ ¬ reached L.height h ∧ L.Admits e (n + 1) (h + 1)
  | .group e, n, h => ¬ reached L.nesting n ∧ ¬ reached L.height h ∧ L.Admits e (n + 1) (h + 1)
  | .binary left op right, n, h => L.Admits left n h ∧
      ¬ reached L.height (h + left.folds op.kind.level?) ∧
      L.Admits right n (h + left.folds op.kind.level? + 1)

section Chains

variable {L : Limits} {l : Level} {first : Expr} {links : List (Token × Expr)} {n h : Nat}

/-- A chain: its operators, each with the operand that follows, are joined to the first operand one
after the other. -/
def Expr.joined (first : Expr) : List (Token × Expr) → Expr
  | [] => first
  | (op, right) :: links => (binary first op right).joined links

/-- Every operand but the first is charged for the operators of the chain up to its own. -/
theorem Limits.admits_joined_iff (hl : ∀ link ∈ links, link.1.kind.level? = some l) :
    L.Admits (first.joined links) n h ↔ L.Admits first n h ∧
      ∀ i (hi : i < links.length), ¬ reached L.height (h + first.folds (some l) + i) ∧
        L.Admits links[i].2 n (h + first.folds (some l) + i + 1) := by
  induction links generalizing first with
  | nil => simp [Expr.joined]
  | cons link links ih =>
    obtain ⟨op, right⟩ := link
    obtain ⟨hop, hl⟩ := List.forall_mem_cons.1 hl
    have hf : (Expr.binary first op right).folds (some l) = first.folds (some l) + 1 := if_pos hop
    rw [Expr.joined, ih hl, hf, Admits, hop]
    constructor
    · rintro ⟨⟨ha, ht, ha'⟩, hrest⟩
      refine ⟨ha, fun i hi => ?_⟩
      cases i with
      | zero => exact ⟨ht, ha'⟩
      | succ i =>
        have hi := hrest i (Nat.lt_of_succ_lt_succ hi)
        rwa [← Nat.add_assoc, Nat.add_right_comm _ 1 i] at hi
    · rintro ⟨ha, hall⟩
      have hzero := hall 0 (Nat.zero_lt_succ _)
      refine ⟨⟨ha, hzero⟩, fun i hi => ?_⟩
      have hi := hall (i + 1) (Nat.succ_lt_succ hi)
      rwa [← Nat.add_assoc, Nat.add_right_comm _ 1 i]

end Chains

namespace Rule

open ParseState

section Steps

variable (c : Setting)

/-- A rule ends with the tree before `rest`, or in too deep a nesting if the limits say so. -/
def Finds (r : Rule) (s : ParseState) (e : Expr) (rest : List Token) : Prop :=
  (c.limits.Admits e s.nesting s.height → Reads c r s (.ok e, { s with rest := rest })) ∧
    (¬ c.limits.Admits e s.nesting s.height →
      ∃ t s', Reads c r s (.error ⟨.tooDeeplyNested, t⟩, s'))

/-- A chain comes as far as the tree before `rest`, or into too deep a nesting. -/
def Joins (l : Level) (s : ParseState) (e : Expr) (rest : List Token) : Prop :=
  (c.limits.Admits e s.nesting s.height → ∀ o,
      Reads c (link l e (e.folds (some l)))
        { s with rest := rest, height := s.height + e.folds (some l) } o →
      Reads c (chain l) s o) ∧
    (¬ c.limits.Admits e s.nesting s.height →
      ∃ t s', Reads c (chain l) s (.error ⟨.tooDeeplyNested, t⟩, s'))

variable {c} {l : Level} {s : ParseState} {e left right : Expr} {op : Token}
  {ts rs rest : List Token}

theorem Finds.plain (h : Finds c primary s e rest) (hn : s.AtNo (·.kind.isPrefixOperator)) :
    Finds c unary s e rest :=
  ⟨fun ha => .plain hn (h.1 ha), fun ha =>
    let ⟨t, s', hr⟩ := h.2 ha
    ⟨t, s', .plain hn hr⟩⟩

theorem Finds.joins (h : Finds c l.operand s e rest) (he : e.folds (some l) = 0) :
    Joins c l s e rest := by
  refine ⟨fun ha o ho => ?_, fun ha => ?_⟩
  · rw [he] at ho
    exact .chain (h.1 ha) ho
  · obtain ⟨t, s', hr⟩ := h.2 ha
    exact ⟨t, s', .chainFail hr⟩

theorem Joins.finds (h : Joins c l s e rest) (hn : ∀ t ∈ rest.head?, t.kind.level? ≠ some l) :
    Finds c (chain l) s e rest := by
  refine ⟨fun ha => h.1 ha _ ?_, h.2⟩
  have hend : Reads c (link l e (e.folds (some l)))
      { s with rest := rest, height := s.height + e.folds (some l) } _ := .linkEnd hn
  simpa only [shrink, Nat.add_sub_cancel] using hend

theorem Joins.binary (h : Joins c l s left (op :: rs ++ rest)) (hl : op.kind.level? = some l)
    (hr : ∀ s' : ParseState, s'.rest = rs ++ rest → Finds c l.operand s' right rest) :
    Joins c l s (.binary left op right) rest := by
  have hf : (Expr.binary left op right).folds (some l) = left.folds (some l) + 1 := if_pos hl
  have hr := hr { s with rest := rs ++ rest, height := s.height + left.folds (some l) + 1 } rfl
  simp only [Joins, Limits.Admits, hl, hf]
  refine ⟨fun ⟨ha, ht, ha'⟩ o ho => ?_, fun hna => ?_⟩
  · exact h.1 ha o (.link rfl hl ht (hr.1 ha') ho)
  · by_cases ha : c.limits.Admits left s.nesting s.height
    · by_cases ht : Limits.reached c.limits.height (s.height + left.folds (some l))
      · exact ⟨_, _, h.1 ha _ (.linkTall rfl hl ht)⟩
      · obtain ⟨t, s', hr⟩ := hr.2 fun ha' => hna ⟨ha, ht, ha'⟩
        exact ⟨t, s', h.1 ha _ (.linkFail rfl hl ht hr)⟩
    · exact h.2 ha

theorem finds_literal {t : Token} {v : Value} (hs : s.rest = t :: rest) (hv : t.Denotes v) :
    Finds c primary s (.literal v) rest := by
  refine ⟨fun _ => ?_, fun ha => absurd trivial ha⟩
  have h := Reads.literal (c := c) hs (Token.value?_eq_some_iff.2 hv)
  simpa only [advance, hs, List.tail_cons] using h

theorem admits_nested : (¬ Limits.reached c.limits.nesting s.nesting ∧
      ¬ Limits.reached c.limits.height s.height ∧
      c.limits.Admits e (s.nesting + 1) (s.height + 1)) ↔
    ¬ s.advance.isDeep c ∧ c.limits.Admits e s.advance.enter.nesting s.advance.enter.height := by
  simp only [isDeep_iff, nesting_advance, height_advance, not_or, and_assoc, nesting_enter,
    height_enter]

theorem finds_unary (hs : s.rest = op :: ts ++ rest) (hp : op.kind.isPrefixOperator)
    (h : ∀ s' : ParseState, s'.rest = ts ++ rest → Finds c unary s' e rest) :
    Finds c unary s (.unary op e) rest := by
  have h := h s.advance.enter (by simp [hs])
  simp only [Finds, Limits.Admits, admits_nested]
  refine ⟨fun ⟨hd, ha⟩ => .unary hs hp hd (h.1 ha), fun hna => ?_⟩
  by_cases hd : s.advance.isDeep c
  · exact ⟨_, _, .unaryDeep hs hp hd⟩
  · obtain ⟨t, s', hr⟩ := h.2 fun ha => hna ⟨hd, ha⟩
    exact ⟨t, _, .unary hs hp hd hr⟩

theorem finds_group {opening closing : Token} (hs : s.rest = opening :: ts ++ closing :: rest)
    (hk : opening.kind = .mark .leftParen) (hc : closing.kind = .mark .rightParen)
    (h : ∀ s' : ParseState, s'.rest = ts ++ closing :: rest →
      Finds c expression s' e (closing :: rest)) :
    Finds c primary s (.group e) rest := by
  have h := h s.advance.enter (by simp [hs])
  simp only [Finds, Limits.Admits, admits_nested]
  refine ⟨fun ⟨hd, ha⟩ => .group hs hk hd (h.1 ha) rfl hc, fun hna => ?_⟩
  by_cases hd : s.advance.isDeep c
  · exact ⟨_, _, .groupDeep hs hk hd⟩
  · obtain ⟨t, s', hr⟩ := h.2 fun ha => hna ⟨hd, ha⟩
    exact ⟨t, _, .groupFail hs hk hd hr⟩

end Steps

section Climb

variable {c : Setting} {s : ParseState} {e : Expr} {rest : List Token}

theorem operand_cases (l : Level) : l.operand = unary ∨ ∃ l', l.operand = chain l' := by
  cases l
  · exact .inr ⟨_, rfl⟩
  · exact .inr ⟨_, rfl⟩
  · exact .inr ⟨_, rfl⟩
  · exact .inl rfl

theorem Joins.finds_of_closed {l : Level} (h : Joins c l s e rest)
    (hc : Closed (chain l).rank rest) : Finds c (chain l) s e rest :=
  h.finds fun t ht hl => Nat.lt_irrefl _ (hc t ht l hl)

theorem finds_operand {l : Level} (ht : e.tier ≤ l.operand.rank)
    (hc : Closed l.operand.rank rest) (hu : e.tier ≤ unary.rank → Finds c unary s e rest)
    (hj : ∀ l', l.operand = chain l' → e.tier ≤ (chain l').rank → Closed l'.operand.rank rest →
      Joins c l' s e rest) : Finds c l.operand s e rest := by
  rcases operand_cases l with ho | ⟨l', ho⟩
  · rw [ho] at ht ⊢
    exact hu ht
  · have hlt := rank_operand_lt l'
    rw [ho] at ht hc ⊢
    exact (hj l' ho ht (hc.mono (Nat.le_of_lt hlt))).finds_of_closed hc

theorem tier_le_operand {l : Level} (h : e.tier < (chain l).rank) : e.tier ≤ l.operand.rank := by
  revert h
  generalize e.tier = n
  cases l <;> simp only [Level.operand, rank] <;> omega

/-- A chain that has no operator of its own level is its first operand. -/
theorem joins_of_tier_le (hu : e.tier ≤ unary.rank → Finds c unary s e rest)
    (hb : ∀ l, e.tier = (chain l).rank → Closed l.operand.rank rest → Joins c l s e rest)
    (l : Level) (ht : e.tier ≤ (chain l).rank) (hc : Closed l.operand.rank rest) :
    Joins c l s e rest := by
  rcases Nat.lt_or_eq_of_le ht with hlt | heq
  · have hf := finds_operand (tier_le_operand hlt) hc hu fun l' ho => joins_of_tier_le hu hb l'
    exact hf.joins (Expr.folds_of_tier_lt hlt)
  · exact hb l heq hc
termination_by (chain l).rank
decreasing_by
  have := rank_operand_lt l
  rwa [ho] at this

end Climb

variable {c : Setting} {e : Expr} {ts : List Token}

theorem unary_lt_chain (l : Level) : unary.rank < (chain l).rank := by cases l <;> decide

theorem rank_chain_injective {l l' : Level} (h : (chain l).rank = (chain l').rank) : l = l' := by
  revert h
  cases l <;> cases l' <;> decide

theorem closed_cons {n : Nat} {t : Token} {rest : List Token}
    (h : ∀ l, t.kind.level? = some l → n < (chain l).rank) : Closed n (t :: rest) := by
  intro t' ht
  cases ht
  exact h

/-- What the tokens spell is found, by the prefix rule if no operator joins it, and by the chains of
every level that its outermost operator may have. -/
def Found (c : Setting) (e : Expr) (ts : List Token) : Prop :=
  ∀ {s : ParseState} {rest : List Token}, s.rest = ts ++ rest →
    (e.tier ≤ unary.rank → Finds c unary s e rest) ∧
      ∀ l, e.tier ≤ (chain l).rank → Closed l.operand.rank rest → Joins c l s e rest

theorem Found.finds_operand {l : Level} (h : Found c e ts) (ht : e.tier ≤ l.operand.rank)
    {s : ParseState} {rest : List Token} (hs : s.rest = ts ++ rest)
    (hc : Closed l.operand.rank rest) : Finds c l.operand s e rest :=
  Rule.finds_operand ht hc (h hs).1 fun l' _ => (h hs).2 l'

/-- A tree that no operator joins is found by all chains if the prefix rule finds it. -/
theorem found_of_tier_le (ht : e.tier ≤ unary.rank)
    (h : ∀ {s : ParseState} {rest : List Token}, s.rest = ts ++ rest → Finds c unary s e rest) :
    Found c e ts := fun hs =>
  ⟨fun _ => h hs, joins_of_tier_le (fun _ => h hs) fun l hl =>
    absurd hl (Nat.ne_of_lt (Nat.lt_of_le_of_lt ht (unary_lt_chain l)))⟩

theorem found_literal {t : Token} {v : Value} (hv : t.Denotes v) : Found c (.literal v) [t] := by
  refine found_of_tier_le (by simp [Expr.tier]) fun {s rest} hs => ?_
  have hk : ¬ t.kind.isPrefixOperator := by
    rcases hv.isOperand with hk | hk | hk | hk | hk <;> simp [hk, Kind.isPrefixOperator]
  exact (finds_literal hs hv).plain (by simpa [AtNo, hs] using hk)

theorem found_unary {op : Token} (hp : op.kind.isPrefixOperator) (ht : e.tier ≤ unary.rank)
    (h : Found c e ts) : Found c (.unary op e) (op :: ts) :=
  found_of_tier_le (Nat.le_refl _) fun hs => finds_unary hs hp fun _ hs' => (h hs').1 ht

theorem found_group {opening closing : Token} (hk : opening.kind = .mark .leftParen)
    (hc : closing.kind = .mark .rightParen) (h : Found c e ts) :
    Found c (.group e) (opening :: ts ++ [closing]) := by
  refine found_of_tier_le (by simp [Expr.tier]) fun {s rest} hs => ?_
  have hno : ¬ opening.kind.isPrefixOperator := by simp [hk, Kind.isPrefixOperator]
  have hclosed : ∀ n, Closed n (closing :: rest) := fun n => closed_cons fun l hl => by
    simp [hc, Kind.level?, Mark.level?] at hl
  have hin := finds_group (c := c) (s := s) (e := e) (by simpa using hs) hk hc fun s' hs' =>
    ((h hs').2 .equality e.tier_le (hclosed _)).finds_of_closed (hclosed _)
  exact hin.plain (by simpa [AtNo, hs] using hno)

theorem found_binary {left right : Expr} {op : Token} {ls rs : List Token} {l : Level}
    (hl : op.kind.level? = some l) (htl : left.tier ≤ (chain l).rank)
    (htr : right.tier < (chain l).rank) (hleft : Found c left ls) (hright : Found c right rs) :
    Found c (.binary left op right) (ls ++ op :: rs) := by
  intro s rest hs
  have ht : (Expr.binary left op right).tier = (chain l).rank := Expr.tier_binary hl
  have hu : (Expr.binary left op right).tier ≤ unary.rank →
      Finds c unary s (.binary left op right) rest := fun hle =>
    absurd hle (Nat.not_le.2 (ht ▸ unary_lt_chain l))
  refine ⟨hu, joins_of_tier_le hu fun l' hl' hc => ?_⟩
  cases rank_chain_injective (ht.symm.trans hl')
  have hop : Closed l.operand.rank (op :: rs ++ rest) := closed_cons fun l' hl' => by
    cases hl.symm.trans hl'
    exact rank_operand_lt l
  have hj : Joins c l s left (op :: rs ++ rest) := (hleft (by simp [hs])).2 l htl hop
  exact hj.binary hl fun s' hs' => hright.finds_operand (tier_le_operand htr) hs' hc

theorem spells_found (h : e.Spells ts) (hg : e.Grammatical) : Found c e ts := by
  induction h with
  | literal hv => exact found_literal hv
  | unary _ ih => exact found_unary hg.1 hg.2.1 (ih hg.2.2)
  | binary _ _ ihl ihr =>
    obtain ⟨l, hl, htl, htr, hgl, hgr⟩ := hg
    exact found_binary hl htl htr (ihl hgl) (ihr hgr)
  | group hk hc _ ih => exact found_group hk hc (ih hg)

/-- The rule of a whole expression finds what the tokens spell if no operator follows. -/
theorem finds_expression (h : e.Spells ts) (hg : e.Grammatical) {s : ParseState}
    {rest : List Token} (hs : s.rest = ts ++ rest) (hc : Closed expression.rank rest) :
    Finds c expression s e rest :=
  have hj := (spells_found h hg hs).2 .equality e.tier_le (hc.mono (by decide))
  hj.finds_of_closed hc

end Rule

end Lox
