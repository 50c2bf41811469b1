import Lox.Proofs.Locality
import Mathlib.Data.List.TakeWhile

/-!
# The first token that cannot stand

Where a rule fails for want of an operand or of a closing bracket, the tokens it has taken are not
at fault: with the token that is wanted, and brackets for the groups around it, the rule ends with
a tree (`Reads.mends`). What a rule has behind it at a failure is open groups, prefix operators and
chains; `Mends` goes up through these one at a time, and each group adds a bracket.

So a parse blames no token too early. It blames none too late, since it has not looked any further
(`Session.parse_error_first`).
-/

namespace Lox

/-- The kind of token that mends an error, where `nil` is as good an operand as any. -/
def Cause.wanted? : Cause → Option Kind
  | .expectExpression => some (.keyword .nilWord)
  | .expectClosingParen => some (.mark .rightParen)
  | .tooDeeplyNested => none

/-- What is wanted joins nothing, is no prefix operator, and does not end the input. -/
theorem Cause.of_wanted? {cause : Cause} {k : Kind} (h : cause.wanted? = some k) :
    k.level? = none ∧ ¬ k.isPrefixOperator ∧ k ≠ .eof := by
  cases cause <;> cases h <;> exact ⟨rfl, Bool.false_ne_true, nofun⟩

theorem Closed.level_ne {rest : List Token} (h : Closed Rule.expression.rank rest) (l : Level) :
    ∀ t ∈ rest.head?, t.kind.level? ≠ some l :=
  fun t ht hl => Nat.not_lt.2 (Rule.rank_le _) (h t ht l hl)

/-- What holds of the first token of a list still does if it goes on otherwise. -/
theorem forall_head_append {p : Token → Prop} {taken a b : List Token} {t : Token} (ht : p t)
    (h : ∀ u ∈ (taken ++ a).head?, p u) : ∀ u ∈ (taken ++ t :: b).head?, p u := by
  rcases taken with _ | ⟨v, vs⟩
  · rintro u ⟨rfl⟩
    exact ht
  · exact h

namespace Rule

open ParseState

variable {c : Setting} {r : Rule} {l : Level} {s s₁ : ParseState} {e : Expr}

section Again

theorem Finds.eq_of_reads {rest : List Token} (hf : Finds c r s e rest)
    (h : Reads c r s (.ok e, s₁)) :
    c.limits.Admits e s.nesting s.height ∧ s₁ = s.moved rest s.reports := by
  by_cases ha : c.limits.Admits e s.nesting s.height
  · have heq := h.eq_parse.trans (hf.1 ha).eq_parse.symm
    exact ⟨ha, (Prod.mk.inj heq).2⟩
  · obtain ⟨t, s', hr⟩ := hf.2 ha
    cases h.eq_parse.trans hr.eq_parse.symm

/-- A rule that ends with a tree ends with it before anything that does not go on with it. -/
structure Again (c : Setting) (r : Rule) (s s₁ : ParseState) (e : Expr) (ts : List Token) :
    Prop where
  rest_eq : s.rest = ts ++ s₁.rest
  state_eq : s₁ = s.moved s₁.rest s.reports
  closed : Closed r.reach s₁.rest
  reads {rest : List Token} (final : Token) (reports : List Diagnostic) : Closed r.reach rest →
    Reads { c with final } r (s.moved (ts ++ rest) reports) (.ok e, s.moved rest reports)

theorem Reads.again_of_finds {ts : List Token} (h : Reads c r s (.ok e, s₁))
    (hs : s.rest = ts ++ s₁.rest) (hcl : Closed r.reach s₁.rest)
    (hf : ∀ (c : Setting) {s : ParseState} {rest : List Token}, s.rest = ts ++ rest →
      Closed r.reach rest → Finds c r s e rest) : Again c r s s₁ e ts := by
  obtain ⟨ha, hs₁⟩ := (hf c hs hcl).eq_of_reads h
  exact ⟨hs, hs₁, hcl, fun final reports hcl' =>
    (hf { c with final } (s := s.moved _ reports) rfl hcl').1 ha⟩

theorem Reads.again_operand (h : Reads c l.operand s (.ok e, s₁)) :
    ∃ ts, Again c l.operand s s₁ e ts := by
  obtain ⟨ts, hs, hsp, hg, ht, hcl⟩ := h.sound rfl (begun_operand l _)
  refine ⟨ts, h.again_of_finds hs hcl fun c s rest hs hcl => ?_⟩
  rw [reach_operand] at ht hcl
  have hfound : Found c e ts := spells_found hsp hg
  exact hfound.finds_operand ht hs hcl

theorem Reads.again_expression (h : Reads c expression s (.ok e, s₁)) :
    ∃ ts, Again c expression s s₁ e ts := by
  obtain ⟨ts, hs, hsp, hg, -, hcl⟩ := h.sound rfl rfl
  exact ⟨ts, h.again_of_finds hs hcl fun c s rest hs hcl => finds_expression hsp hg hs hcl⟩

end Again

/-- How many operators of its own level a rule has joined before it begins. -/
def folded : Rule → Nat
  | link _ _ folds => folds
  | _ => 0

theorem folded_operand (l : Level) : l.operand.folded = 0 := by cases l <;> rfl

/-- After `taken`, a token of kind `k` and `m` brackets let a rule end with a tree. -/
def Mends (c : Setting) (r : Rule) (s : ParseState) (taken : List Token) (k : Kind) (m : Nat) :
    Prop :=
  ∀ (final : Token) (reports : List Diagnostic) {t : Token} {closing rest : List Token},
    t.kind = k → closing.length = m → (∀ u ∈ closing, u.kind = .mark .rightParen) →
    Closed expression.rank rest →
    ∃ e, Reads { c with final } r (s.moved (taken ++ t :: (closing ++ rest)) reports)
      (.ok e, (s.moved rest reports).shrink r.folded)

section Steps

variable {taken ts us : List Token} {op opening : Token} {left right : Expr} {folds m : Nat}
  {k : Kind}

theorem shrink_grow (s : ParseState) (n : Nat) : s.grow.shrink (n + 1) = s.shrink n := by
  simp only [grow, shrink, Nat.add_sub_add_right]

theorem closed_of_wanted {cause : Cause} {t : Token} {rest : List Token}
    (hk : cause.wanted? = some t.kind) (n : Nat) : Closed n (t :: rest) :=
  closed_cons fun l hl => by
    obtain ⟨hnone, -⟩ := Cause.of_wanted? hk
    cases hnone.symm.trans hl

theorem Again.closed_mended {cause : Cause} {t : Token} {rest : List Token}
    (h : Again c r s s₁ e ts) (hk : cause.wanted? = some t.kind) (hs : s₁.rest = taken ++ us) :
    Closed r.reach (taken ++ t :: rest) := by
  have ht : Closed r.reach [t] := closed_of_wanted hk _
  exact forall_head_append (ht t rfl) (hs ▸ h.closed)

theorem Mends.chainFail (h : Mends c l.operand s taken k m) : Mends c (chain l) s taken k m := by
  intro final reports t closing rest hk hm hclosing hcl
  obtain ⟨e, he⟩ := h final reports hk hm hclosing hcl
  rw [folded_operand] at he
  exact ⟨e, .chain he (.linkEnd (hcl.level_ne l))⟩

theorem Mends.chain {cause : Cause} (hk : cause.wanted? = some k)
    (h₁ : Again c l.operand s s₁ left ts) (hs : s₁.rest = taken ++ us)
    (h : Mends c (link l left 0) s₁ taken k m) : Mends c (chain l) s (ts ++ taken) k m := by
  rintro final reports t closing rest rfl hm hclosing hcl
  obtain ⟨e, he⟩ := h final reports rfl hm hclosing hcl
  rw [h₁.state_eq] at he
  rw [List.append_assoc]
  exact ⟨e, .chain (h₁.reads final reports (h₁.closed_mended hk hs)) he⟩

theorem Mends.linkFail (hl : op.kind.level? = some l) (ht : ¬ s.advance.isTall c)
    (h : Mends c l.operand s.advance.grow taken k m) :
    Mends c (link l left folds) s (op :: taken) k m := by
  intro final reports t closing rest hk hm hclosing hcl
  obtain ⟨e, he⟩ := h final reports hk hm hclosing hcl
  rw [folded_operand] at he
  -- the mended operand is the last of the chain, whose operators are given back
  have hend : Reads { c with final } (Rule.link l (.binary left op e) (folds + 1))
      (s.moved rest reports).grow _ := .linkEnd (hcl.level_ne l)
  rw [shrink_grow] at hend
  have hlink : Reads { c with final } (Rule.link l left folds)
      (s.moved (op :: taken ++ t :: (closing ++ rest)) reports) _ := .link rfl hl ht he hend
  exact ⟨_, hlink⟩

theorem Mends.link {cause : Cause} (hk : cause.wanted? = some k) (hl : op.kind.level? = some l)
    (ht : ¬ s.advance.isTall c) (h₁ : Again c l.operand s.advance.grow s₁ right ts)
    (hs : s₁.rest = taken ++ us)
    (h : Mends c (link l (.binary left op right) (folds + 1)) s₁ taken k m) :
    Mends c (link l left folds) s (op :: ts ++ taken) k m := by
  rintro final reports t closing rest rfl hm hclosing hcl
  obtain ⟨e, he⟩ := h final reports rfl hm hclosing hcl
  rw [h₁.state_eq] at he
  have hend : (s.advance.grow.moved rest reports).shrink (folds + 1) =
      (s.moved rest reports).shrink folds := shrink_grow (s.moved rest reports) folds
  have hlink : Reads { c with final } (Rule.link l left folds)
      (s.moved (op :: ts ++ (taken ++ t :: (closing ++ rest))) reports) _ :=
    .link rfl hl ht (h₁.reads final reports (h₁.closed_mended hk hs)) he
  rw [List.append_assoc]
  exact ⟨e, hend ▸ hlink⟩

theorem Mends.unary (hp : op.kind.isPrefixOperator) (hd : ¬ s.advance.isDeep c)
    (h : Mends c unary s.advance.enter taken k m) : Mends c unary s (op :: taken) k m := by
  intro final reports t closing rest hk hm hclosing hcl
  obtain ⟨e, he⟩ := h final reports hk hm hclosing hcl
  have hunary : Reads { c with final } Rule.unary
      (s.moved (op :: taken ++ t :: (closing ++ rest)) reports) _ := .unary rfl hp hd he
  exact ⟨_, hunary⟩

theorem Mends.plain {cause : Cause} (hk : cause.wanted? = some k)
    (hn : ∀ t ∈ (taken ++ us).head?, ¬ t.kind.isPrefixOperator) (h : Mends c primary s taken k m) :
    Mends c Rule.unary s taken k m := by
  rintro final reports t closing rest rfl hm hclosing hcl
  obtain ⟨e, he⟩ := h final reports rfl hm hclosing hcl
  obtain ⟨-, hno, -⟩ := Cause.of_wanted? hk
  exact ⟨e, .plain (forall_head_append hno hn) he⟩

theorem closed_closing {t : Token} {rest : List Token} (h : t.kind = .mark .rightParen) (n : Nat) :
    Closed n (t :: rest) := by
  have hk : Cause.expectClosingParen.wanted? = some t.kind := congrArg some h.symm
  exact closed_of_wanted hk n

theorem Mends.groupFail (hk : opening.kind = .mark .leftParen) (hd : ¬ s.advance.isDeep c)
    (h : Mends c expression s.advance.enter taken k m) :
    Mends c primary s (opening :: taken) k (m + 1) := by
  intro final reports t closing rest ht hm hclosing hcl
  -- the last bracket is for this group, the others are for those inside
  obtain ⟨inner, last, hlast⟩ :=
    (List.eq_nil_or_concat closing).resolve_left (List.ne_nil_of_length_eq_add_one hm)
  rw [List.concat_eq_append] at hlast
  subst hlast
  obtain ⟨hinner, hlast⟩ := List.forall_mem_append.1 hclosing
  have hlast : last.kind = .mark .rightParen := hlast last List.mem_cons_self
  have hcl' : Closed expression.rank (last :: rest) := closed_closing hlast _
  obtain ⟨e, he⟩ := h final reports ht (by simpa using hm) hinner hcl'
  have hgroup : Reads { c with final } primary
      (s.moved (opening :: taken ++ t :: (inner ++ last :: rest)) reports) _ :=
    .group rfl hk hd he rfl hlast
  rw [List.append_assoc]
  exact ⟨_, hgroup⟩

theorem mends_groupOpen (hk : opening.kind = .mark .leftParen) (hd : ¬ s.advance.isDeep c)
    (h : Again c expression s.advance.enter s₁ e ts) :
    Mends c primary s (opening :: ts) (.mark .rightParen) 0 := by
  intro final reports t closing rest ht hm _ _
  obtain rfl := List.length_eq_zero_iff.1 hm
  have hgroup : Reads { c with final } primary
      (s.moved (opening :: ts ++ t :: ([] ++ rest)) reports) _ :=
    .group rfl hk hd (h.reads final reports (closed_closing ht _)) rfl ht
  exact ⟨_, hgroup⟩

theorem mends_noOperand : Mends c primary s [] (.keyword .nilWord) 0 := by
  intro final reports t closing rest ht hm _ _
  obtain rfl := List.length_eq_zero_iff.1 hm
  have hlit : Reads { c with final } primary (s.moved (t :: ([] ++ rest)) reports) _ :=
    .literal rfl (Token.value?_eq_some_iff.2 (.nil ht))
  exact ⟨_, hlit⟩

end Steps

theorem lt_of_not_isDeep {N : Nat} (hN : c.limits.nesting = some N) (hd : ¬ s.advance.isDeep c) :
    s.nesting < N := by
  rw [isDeep_iff, not_or, hN, nesting_advance] at hd
  have hle : ¬ N ≤ s.nesting := fun hle => hd.1 (decide_eq_true hle)
  omega

theorem rest_of_advance {t : Token} {ts us : List Token} (hs : s.rest = t :: ts)
    (h : s.advance.rest = us) : s.rest = t :: us := by
  rw [hs, ← h, rest_advance, hs, List.tail_cons]

/-- How many brackets a token of kind `k` and `m` brackets after it are. -/
def brackets (k : Kind) (m : Nat) : Nat := if k = .mark .rightParen then m + 1 else m

theorem brackets_succ (k : Kind) (m : Nat) : brackets k (m + 1) = brackets k m + 1 := by
  unfold brackets
  split <;> rfl

/-- Where a rule fails for want of a token, the tokens taken can be gone on with. -/
theorem Reads.mends {o : Except ParseError Expr × ParseState} (h : Reads c r s o) :
    ∀ {e : ParseError} {s₁ : ParseState} {k : Kind}, o = (.error e, s₁) →
      e.cause.wanted? = some k → ∃ taken m, s.rest = taken ++ s₁.rest ∧
        Mends c r s taken k m ∧
        ∀ N, c.limits.nesting = some N → s.nesting ≤ N → s.nesting + brackets k m ≤ N := by
  induction h with
  | linkEnd | group | literal =>
    intro e s₁ k ho
    cases ho
  | linkTall | unaryDeep | groupDeep =>
    intro e s₁ k ho hk
    cases ho
    cases hk
  | chainFail _ ih =>
    intro e s₁ k ho hk
    cases ho
    obtain ⟨taken, m, hs, hm, hN⟩ := ih rfl hk
    exact ⟨taken, m, hs, hm.chainFail, hN⟩
  | chain h₁ _ _ ih =>
    intro e s₁ k ho hk
    obtain ⟨ts, ha⟩ := h₁.again_operand
    obtain ⟨taken, m, hs, hm, hN⟩ := ih ho hk
    refine ⟨ts ++ taken, m, ?_, hm.chain hk ha hs, ?_⟩
    · rw [ha.rest_eq, hs, List.append_assoc]
    · rwa [ha.state_eq] at hN
  | linkFail hs hl ht _ ih =>
    intro e s₁ k ho hk
    cases ho
    obtain ⟨taken, m, hs', hm, hN⟩ := ih rfl hk
    exact ⟨_, m, rest_of_advance hs hs', hm.linkFail hl ht, hN⟩
  | link hs hl ht h₁ _ _ ih =>
    intro e s₁ k ho hk
    obtain ⟨ts, ha⟩ := h₁.again_operand
    obtain ⟨taken, m, hs', hm, hN⟩ := ih ho hk
    refine ⟨_, m, ?_, hm.link hk hl ht ha hs', ?_⟩
    · rw [rest_of_advance hs ha.rest_eq, hs', List.cons_append, List.cons_append,
        List.append_assoc]
    · rwa [ha.state_eq] at hN
  | @unary s s₁ op ts r hs hp hd _ ih =>
    intro e s' k ho hk
    rcases r with e' | operand
    · cases ho
      obtain ⟨taken, m, hs', hm, hN⟩ := ih rfl hk
      refine ⟨_, m, rest_of_advance hs hs', hm.unary hp hd, fun N hlim _ => ?_⟩
      have hin := hN N hlim (lt_of_not_isDeep hlim hd)
      simp only [nesting_enter, nesting_advance] at hin
      omega
    · cases ho
  | plain hn _ ih =>
    intro e s₁ k ho hk
    obtain ⟨taken, m, hs, hm, hN⟩ := ih ho hk
    exact ⟨taken, m, hs, hm.plain hk (by rwa [← hs]), hN⟩
  | groupFail hs hk₁ hd _ ih =>
    intro e s₁ k ho hk
    cases ho
    obtain ⟨taken, m, hs', hm, hN⟩ := ih rfl hk
    refine ⟨_, m + 1, rest_of_advance hs hs', hm.groupFail hk₁ hd, fun N hlim _ => ?_⟩
    have hin := hN N hlim (lt_of_not_isDeep hlim hd)
    simp only [nesting_enter, nesting_advance] at hin
    rw [brackets_succ]
    omega
  | groupOpen hs hk₁ hd h₁ _ _ =>
    intro e s₁ k ho hk
    cases ho
    cases hk
    obtain ⟨ts, ha⟩ := h₁.again_expression
    exact ⟨_, 0, rest_of_advance hs ha.rest_eq, mends_groupOpen hk₁ hd ha,
      fun N hlim _ => lt_of_not_isDeep hlim hd⟩
  | noOperand =>
    intro e s₁ k ho hk
    cases ho
    cases hk
    exact ⟨[], 0, rfl, mends_noOperand, fun N _ hle => hle⟩

end Rule

namespace Session

/-- Up to any token for the end of input, a parse of the tokens takes them all and ends with a
tree. -/
def Complete (limits : Limits) (tokens : List Token) : Prop :=
  ∀ eof : Token, eof.isEof → ∃ e,
    let s := start limits (tokens ++ [eof])
    s.parse = (.ok e, { s with position := tokens.length })

theorem over_of_parse {limits : Limits} {tokens : List Token} {r : Except ParseError Expr}
    {s' : Session} (h : (start limits tokens).parse = (r, s')) : s'.Over limits tokens :=
  (over_start limits tokens).of_parse h

/-- The tokens that a failing parse took can be gone on with, if a token was wanted there. -/
theorem complete_of_wanted {limits : Limits} {tokens : List Token} {e : ParseError} {s' : Session}
    {k : Kind} (h : (start limits tokens).parse = (.error e, s')) (hk : e.cause.wanted? = some k) :
    ∃ m, (∀ N, limits.nesting = some N → Rule.brackets k m ≤ N) ∧
      ∀ (t : Token) (closing : List Token), t.kind = k → closing.length = m →
        (∀ u ∈ closing, u.kind = .mark .rightParen) →
        Complete limits (tokens.take s'.position ++ t :: closing) := by
  obtain ⟨f, hr, hrest, -⟩ := (start limits tokens).reads_parse
  have hpos := (over_of_parse h).take_append_rest
  rw [h] at hr hrest
  obtain ⟨taken, m, hs, hm, hN⟩ := hr.mends rfl hk
  have hcut : tokens.takeWhile (!·.isEof) = taken ++ f.rest := hs
  have hrest : s'.rest = f.rest := hrest
  rw [hcut, hrest] at hpos
  have htaken : tokens.take s'.position = taken := List.append_cancel_right hpos
  refine ⟨m, fun N hlim => ?_, fun t closing ht hlen hclosing eof heof => ?_⟩
  · have hle : 0 + Rule.brackets k m ≤ N := hN N hlim (Nat.zero_le _)
    rwa [Nat.zero_add] at hle
  · obtain ⟨e', he⟩ := hm eof [] ht hlen hclosing (closed_nil _)
    have hno : ∀ u ∈ taken ++ t :: closing, !u.isEof := by
      refine List.forall_mem_append.2 ⟨fun u hu => ?_, List.forall_mem_cons.2 ⟨?_, fun u hu => ?_⟩⟩
      · have hmem : u ∈ tokens.takeWhile (!·.isEof) := hcut ▸ List.mem_append_left _ hu
        exact List.all_eq_true.1 List.all_takeWhile u hmem
      · obtain ⟨-, -, hno⟩ := Cause.of_wanted? hk
        simpa [Token.isEof, ht] using hno
      · rw [Token.isEof, hclosing u hu]
        rfl
    rw [List.append_nil] at he
    rw [htaken]
    refine ⟨e', ?_⟩
    rw [start_append_eof limits hno heof]
    exact parse_of_reads (s := ⟨⟨limits, eof⟩, taken ++ t :: closing, 0, []⟩) he

/-- Where a parse wants an operand, the tokens before can be gone on with by an operand, and where
it wants a bracket, by one; and no token behind has been looked at. -/
theorem parse_error_first {tokens : List Token} {e : ParseError} {s' : Session}
    (heof : ∃ t ∈ tokens, t.isEof) (h : (start .standard tokens).parse = (.error e, s')) :
    s'.position < tokens.length ∧
      (e.cause = .expectExpression → ∃ m ≤ 128, ∀ (t : Token) (closing : List Token),
        t.kind = .keyword .nilWord → closing.length = m →
        (∀ u ∈ closing, u.kind = .mark .rightParen) →
        Complete .standard (tokens.take s'.position ++ t :: closing)) ∧
      (e.cause = .expectClosingParen → ∃ m, 1 ≤ m ∧ m ≤ 128 ∧ ∀ closing : List Token,
        closing.length = m → (∀ u ∈ closing, u.kind = .mark .rightParen) →
        Complete .standard (tokens.take s'.position ++ closing)) ∧
      ∀ others : List Token, others.take (s'.position + 1) = tokens.take (s'.position + 1) →
        ∃ s'', (start .standard others).parse = (.error e, s'') ∧
          s''.position = s'.position := by
  have ho := over_start .standard tokens
  have hq : s'.position < tokens.length := by
    obtain ⟨t, ht, hteof⟩ := heof
    have hne : tokens.takeWhile (!·.isEof) ≠ tokens := fun hself => by
      simpa [hteof] using List.takeWhile_eq_self_iff.1 hself t ht
    have hpos := (over_of_parse h).position_add_length_rest
    refine Nat.lt_of_not_le fun hle => hne ((List.takeWhile_sublist _).eq_of_length_le ?_)
    omega
  refine ⟨hq, fun hcause => ?_, fun hcause => ?_, fun others hothers => ?_⟩
  · obtain ⟨m, hm, hcomplete⟩ := complete_of_wanted h (by rw [hcause]; rfl)
    exact ⟨m, hm 128 rfl, hcomplete⟩
  · obtain ⟨m, hm, hcomplete⟩ := complete_of_wanted h (by rw [hcause]; rfl)
    refine ⟨m + 1, Nat.le_add_left _ _, hm 128 rfl, fun closing hlen hclosing => ?_⟩
    obtain ⟨t, ts, rfl⟩ := List.exists_cons_of_length_eq_add_one hlen
    obtain ⟨ht, hts⟩ := List.forall_mem_cons.1 hclosing
    exact hcomplete t ts ht (Nat.succ.inj hlen) hts
  · have hact : ((start .standard tokens).act .parse).position = s'.position := by rw [act, h]
    obtain ⟨hposition, hanswer⟩ := ho.act_same (over_start .standard others) (a := .parse)
      (n := s'.position) (by rw [hact]; exact Nat.zero_add _) (by rwa [hact]) hothers.symm
    refine ⟨_, Prod.ext ?_ rfl, hposition.trans (Nat.zero_add _)⟩
    rw [answer, answer, h] at hanswer
    exact Option.some.inj hanswer

/-- A semicolon where an operand is wanted, behind two groups and two prefix operators. -/
theorem parse_error_first_semicolon :
    let tokens : List Token := [.ofMark .bang, .ofMark .leftParen, .ofKeyword .nilWord,
      .ofMark .plus, .ofMark .leftParen, .ofMark .minus, .ofMark .semicolon, .eof 1]
    ∃ e s', (start .standard tokens).parse = (.error e, s') ∧ e.cause = .expectExpression ∧
      s'.position = 6 ∧ ∃ m ≤ 128, ∀ (t : Token) (closing : List Token),
        t.kind = .keyword .nilWord → closing.length = m →
        (∀ u ∈ closing, u.kind = .mark .rightParen) →
        Complete .standard (tokens.take 6 ++ t :: closing) := by
  intro tokens
  have hparse : (start .standard tokens).parse =
      (.error ⟨.expectExpression, .ofMark .semicolon⟩, (start .standard tokens).parse.2) :=
    Prod.ext (by decide +kernel) rfl
  have hpos : (start .standard tokens).parse.2.position = 6 := by decide +kernel
  obtain ⟨-, hmend, -⟩ := parse_error_first ⟨.eof 1, by simp [tokens], rfl⟩ hparse
  rw [hpos] at hmend
  exact ⟨_, _, hparse, rfl, hpos, hmend rfl⟩

end Session

end Lox
