import Lox.Proofs.Completeness
import Lox.Session

/-!
# What the parses of a session find

A session is at some place in its tokens, however it came there, and a parse depends on nothing
else: it ends with a tree exactly if the tree leads the tokens from there on and the limits admit
it, and then it takes the tree's tokens (`Session.parse_eq_ok_iff`).

`Expr.Leads` speaks of the tokens that the session was started with, which go on after the first
token for the end of input; those never matter.
-/

namespace Lox

namespace Expr

/-- The first `n` tokens spell the tree, and no operator follows. -/
structure Leads (e : Expr) (tokens : List Token) (n : Nat) : Prop where
  grammatical : e.Grammatical
  le_length : n ≤ tokens.length
  spells : e.Spells (tokens.take n)
  closed : Closed Rule.expression.rank (tokens.drop n)

theorem Spells.not_isEof {e : Expr} {ts : List Token} (h : e.Spells ts) (hg : e.Grammatical) :
    ∀ t ∈ ts, !t.isEof := by
  induction h with
  | literal hv =>
    rcases hv.isOperand with hk | hk | hk | hk | hk <;> simp [Token.isEof, hk]
  | @unary op e ts _ ih =>
    obtain ⟨hp, -, hg⟩ := hg
    refine List.forall_mem_cons.2 ⟨?_, ih hg⟩
    rcases hk : op.kind <;> simp_all [Token.isEof, Kind.isPrefixOperator]
  | @binary left right op ls rs _ _ ihl ihr =>
    obtain ⟨l, hl, -, -, hgl, hgr⟩ := hg
    refine List.forall_mem_append.2 ⟨ihl hgl, List.forall_mem_cons.2 ⟨?_, ihr hgr⟩⟩
    rcases hk : op.kind <;> simp_all [Token.isEof, Kind.level?]
  | group hk hc _ ih =>
    intro t ht
    simp only [List.cons_append, List.mem_cons, List.mem_append, List.mem_nil_iff, or_false] at ht
    rcases ht with rfl | ht | rfl
    · simp [Token.isEof, hk]
    · exact ih hg t ht
    · simp [Token.isEof, hc]

theorem Spells.ne_nil {e : Expr} {ts : List Token} (h : e.Spells ts) : ts ≠ [] := by
  cases h <;> simp

theorem closed_append_iff {n : Nat} {before after : List Token}
    (h : ∀ t ∈ after.head?, t.isEof) : Closed n (before ++ after) ↔ Closed n before := by
  rcases before with _ | ⟨t, ts⟩
  · refine iff_of_true (fun t ht l hl => ?_) fun t ht => by cases ht
    have he := h t ht
    simp only [Token.isEof, beq_iff_eq] at he
    simp [he, Kind.level?] at hl
  · exact Iff.rfl

/-- The tokens from the end of input on do not matter. -/
theorem leads_append_iff {e : Expr} {before after : List Token} {n : Nat}
    (h : ∀ t ∈ after.head?, t.isEof) : e.Leads (before ++ after) n ↔ e.Leads before n := by
  have hle : e.Leads (before ++ after) n → n ≤ before.length := fun he => by
    refine Nat.le_of_not_lt fun hlt => ?_
    rcases after with _ | ⟨t, ts⟩
    · have := he.le_length
      simp only [List.append_nil] at this
      omega
    · have ht : t ∈ (before ++ t :: ts).take n := by
        rw [List.take_append, List.mem_append]
        obtain ⟨k, hk⟩ := Nat.exists_eq_add_of_lt hlt
        exact .inr (by simp [hk, Nat.add_assoc])
      have hnot := he.spells.not_isEof he.grammatical t ht
      simp [h t rfl] at hnot
  constructor
  · intro he
    have hn := hle he
    refine ⟨he.grammatical, hn, ?_, ?_⟩
    · simpa only [List.take_append_of_le_length hn] using he.spells
    · have hc := he.closed
      rwa [List.drop_append_of_le_length hn, closed_append_iff h] at hc
  · intro he
    have hn := he.le_length
    refine ⟨he.grammatical, by simp only [List.length_append]; omega, ?_, ?_⟩
    · simpa only [List.take_append_of_le_length hn] using he.spells
    · rw [List.drop_append_of_le_length hn, closed_append_iff h]
      exact he.closed

end Expr

namespace Session

inductive Action where
  | parse
  | synchronize

def act (s : Session) : Action → Session
  | .parse => s.parse.2
  | .synchronize => s.synchronize

/-- The session after some calls. -/
def run (s : Session) (actions : List Action) : Session := actions.foldl act s

/-- What stays the same in a session over some tokens. -/
structure Over (limits : Limits) (tokens : List Token) (s : Session) : Prop where
  setting_eq : s.setting = ⟨limits, finalToken tokens⟩
  tokens_eq : s.tokens = tokens.takeWhile (!·.isEof)
  position_le : s.position ≤ s.tokens.length

variable {limits : Limits} {tokens : List Token} {s : Session}

theorem over_start (limits : Limits) (tokens : List Token) :
    (start limits tokens).Over limits tokens :=
  ⟨rfl, rfl, Nat.zero_le _⟩

theorem start_append_eof {tokens : List Token} {eof : Token} (limits : Limits)
    (h : ∀ t ∈ tokens, !t.isEof) (heof : eof.isEof) :
    start limits (tokens ++ [eof]) = ⟨⟨limits, eof⟩, tokens, 0, []⟩ := by
  have hnone : tokens.find? Token.isEof = none :=
    List.find?_eq_none.2 fun t ht => by simpa using h t ht
  have hcut : (tokens ++ [eof]).takeWhile (!·.isEof) = tokens := by
    rw [List.takeWhile_append_of_pos h]
    simp [heof]
  rw [start, finalToken, List.find?_append, hnone, hcut]
  simp [heof]

theorem statementRest_le (taken : Token) (ts : List Token) :
    statementRest taken ts ≤ ts.length := by
  induction ts generalizing taken with
  | nil => exact Nat.le_refl _
  | cons t ts ih =>
    simp only [statementRest, List.length_cons]
    split_ifs
    · omega
    · exact Nat.succ_le_succ (ih t)

theorem Over.act (h : s.Over limits tokens) (a : Action) : (s.act a).Over limits tokens := by
  refine ⟨?_, ?_, ?_⟩
  · cases a with
    | parse => exact h.setting_eq
    | synchronize =>
      simp only [Session.act, synchronize]
      split <;> exact h.setting_eq
  · cases a with
    | parse => exact h.tokens_eq
    | synchronize =>
      simp only [Session.act, synchronize]
      split <;> exact h.tokens_eq
  · cases a with
    | parse => exact Nat.sub_le _ _
    | synchronize =>
      simp only [Session.act, synchronize]
      split
      · exact h.position_le
      · rename_i t ts hr
        have hlen := congrArg List.length hr
        have hle := statementRest_le t ts
        simp only [rest, List.length_drop, List.length_cons] at hlen
        show s.position + 1 + statementRest t ts ≤ s.tokens.length
        omega

theorem Over.of_parse {s' : Session} (h : s.Over limits tokens) {r : Except ParseError Expr}
    (hp : s.parse = (r, s')) : s'.Over limits tokens := by
  have ha := h.act .parse
  rwa [Session.act, hp] at ha

theorem Over.run (h : s.Over limits tokens) (actions : List Action) :
    (s.run actions).Over limits tokens := by
  induction actions generalizing s with
  | nil => exact h
  | cons a as ih => exact ih (h.act a)

theorem over_run (limits : Limits) (tokens : List Token) (actions : List Action) :
    ((start limits tokens).run actions).Over limits tokens :=
  (over_start limits tokens).run actions

section Parse

variable {e : Expr} {n : Nat}

theorem parse_of_reads {r : Except ParseError Expr} {f : ParseState}
    (h : Rule.Reads s.setting .expression s.state (r, f)) :
    s.parse = (r, { s with
      position := s.tokens.length - f.rest.length
      reports := f.reports }) := by
  simp only [parse, ← h.eq_parse]

theorem finds_of_leads (h : e.Leads s.rest n) :
    Rule.Finds s.setting .expression s.state e (s.rest.drop n) :=
  Rule.finds_expression h.spells h.grammatical (List.take_append_drop n s.rest).symm h.closed

theorem parse_of_admits (h : e.Leads s.rest n) (ha : s.setting.limits.Admits e 0 0) :
    s.parse = (.ok e, { s with position := s.position + n }) := by
  rw [parse_of_reads ((finds_of_leads h).1 ha)]
  have hpos := List.length_pos_iff.2 h.spells.ne_nil
  have hle := h.le_length
  simp only [rest, List.length_take, List.length_drop] at hpos hle ⊢
  congr 2
  omega

theorem parse_of_not_admits (h : e.Leads s.rest n) (ha : ¬ s.setting.limits.Admits e 0 0) :
    ∃ t s', s.parse = (.error ⟨.tooDeeplyNested, t⟩, s') ∧
      s'.reports = s.reports ++ [.parse ⟨.tooDeeplyNested, t⟩] := by
  obtain ⟨t, f, hr⟩ := (finds_of_leads h).2 ha
  exact ⟨t, _, parse_of_reads hr, hr.reports_eq⟩

theorem leads_of_parse {s' : Session} (h : s.parse = (.ok e, s')) : ∃ n, e.Leads s.rest n := by
  have hr := Rule.reads_parse s.setting .expression s.state
  have hok : (Rule.parse s.setting .expression s.state).1 = .ok e := congrArg Prod.fst h
  obtain ⟨ts, hts, hsp, hg, -, hc⟩ := hr.sound (Prod.ext hok rfl) rfl
  have hlen := congrArg List.length hts
  simp only [List.length_append] at hlen
  refine ⟨ts.length, hg, ?_, ?_, ?_⟩
  · show ts.length ≤ s.state.rest.length
    omega
  · show e.Spells (s.state.rest.take ts.length)
    rw [hts, List.take_left]
    exact hsp
  · show Closed _ (s.state.rest.drop ts.length)
    rw [hts, List.drop_left]
    exact hc

/-- A parse ends with a tree exactly if the tree comes next and the limits admit it. -/
theorem parse_eq_ok_iff {s' : Session} : s.parse = (.ok e, s') ↔
    ∃ n, e.Leads s.rest n ∧ s.setting.limits.Admits e 0 0 ∧
      s' = { s with position := s.position + n } := by
  constructor
  · intro h
    obtain ⟨n, hl⟩ := leads_of_parse h
    by_cases ha : s.setting.limits.Admits e 0 0
    · have hp := parse_of_admits hl ha
      exact ⟨n, hl, ha, congrArg Prod.snd (h.symm.trans hp)⟩
    · obtain ⟨t, s'', hp, -⟩ := parse_of_not_admits hl ha
      cases h.symm.trans hp
  · rintro ⟨n, hl, ha, rfl⟩
    exact parse_of_admits hl ha

theorem Over.not_isEof (h : s.Over limits tokens) : ∀ t ∈ s.rest, !t.isEof := fun t ht =>
  List.all_eq_true.1 List.all_takeWhile t (h.tokens_eq ▸ List.mem_of_mem_drop ht)

theorem Over.drop_eq (h : s.Over limits tokens) :
    ∃ after, tokens.drop s.position = s.rest ++ after ∧ ∀ t ∈ after.head?, t.isEof := by
  refine ⟨tokens.dropWhile (!·.isEof), ?_, fun t ht => ?_⟩
  · rw [rest, ← List.drop_append_of_le_length h.position_le, h.tokens_eq,
      List.takeWhile_append_dropWhile]
  · have hnot := List.head?_dropWhile_not (!·.isEof) tokens
    rw [Option.mem_def] at ht
    simpa [ht] using hnot

theorem Over.leads_iff (h : s.Over limits tokens) :
    e.Leads s.rest n ↔ e.Leads (tokens.drop s.position) n := by
  obtain ⟨after, hd, heof⟩ := h.drop_eq
  rw [hd, Expr.leads_append_iff heof]

end Parse

end Session

end Lox
