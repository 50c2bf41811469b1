import Lox.Proofs.Locality
import Lox.Proofs.Trees
import Mathlib.Logic.Function.Iterate

/-!
# Reading on after errors

A program can be read by rounds: each reads an expression and, if that fails, leaves the broken
statement. A tree takes a token at least; an error may take none, but then `synchronize` does,
unless the parse has come to the end by itself (`Session.Over.position_lt_round`). So the rounds
come to the end, after no more of them than there are tokens, and each begins behind all tokens that
the rounds before have blamed (`Session.recovery_progress`).
-/

namespace Lox

namespace Session

/-- An expression is read, or else the broken statement is left. -/
def round (s : Session) : Session :=
  match s.parse with
  | (.ok _, s') => s'
  | (.error _, s') => s'.synchronize

theorem round_of_ok {s s' : Session} {e : Expr} (h : s.parse = (.ok e, s')) : s.round = s' := by
  rw [round, h]

theorem round_of_error {s s' : Session} {e : ParseError} (h : s.parse = (.error e, s')) :
    s.round = s'.synchronize := by
  rw [round, h]

section Over

variable {limits : Limits} {tokens : List Token} {s s' : Session}

theorem Over.isAtEnd_iff (h : s.Over limits tokens) : s.isAtEnd ↔ s.rest = [] := by
  rw [isAtEnd, peek]
  rcases hr : s.rest with _ | ⟨t, ts⟩
  · exact iff_of_true h.final_isEof rfl
  · have hno := h.not_isEof t (hr ▸ List.mem_cons_self)
    simpa using hno

theorem Over.round (h : s.Over limits tokens) : s.round.Over limits tokens := by
  rcases hp : s.parse with ⟨e | e, s'⟩
  · rw [round_of_error hp]
    exact (h.of_parse hp).act .synchronize
  · rw [round_of_ok hp]
    exact h.of_parse hp

theorem Over.iterate_round (h : s.Over limits tokens) (i : Nat) :
    (Session.round^[i] s).Over limits tokens := by
  induction i generalizing s with
  | zero => exact h
  | succ i ih => exact ih h.round

theorem Over.position_le_total (h : s.Over limits tokens) :
    s.position ≤ (tokens.takeWhile (!·.isEof)).length :=
  h.tokens_eq ▸ h.position_le

theorem Over.position_le_of_parse (h : s.Over limits tokens) {r : Except ParseError Expr}
    (hp : s.parse = (r, s')) : s.position ≤ s'.position := by
  have ha := (h.rest_act .parse).1
  rwa [Session.act, hp] at ha

end Over

theorem position_lt_of_parse_ok {s s' : Session} {e : Expr} (h : s.parse = (.ok e, s')) :
    s.position < s'.position := by
  obtain ⟨n, hl, -, rfl⟩ := parse_eq_ok_iff.1 h
  have hpos := List.length_pos_iff.2 hl.spells.ne_nil
  simp only [List.length_take] at hpos
  show s.position < s.position + n
  omega

theorem position_lt_synchronize {s : Session} (h : s.rest ≠ []) :
    s.position < s.synchronize.position := by
  obtain ⟨t, ts, hr⟩ := List.exists_cons_of_ne_nil h
  simp only [synchronize, hr]
  omega

theorem position_le_synchronize (s : Session) : s.position ≤ s.synchronize.position := by
  by_cases h : s.rest = []
  · exact Nat.le_of_eq (congrArg position (synchronize_eq_self h).symm)
  · exact Nat.le_of_lt (position_lt_synchronize h)

section Rounds

variable {limits : Limits} {tokens : List Token} {s s' : Session}

/-- A failed parse that took nothing does not stand at the end if it did not begin there. -/
theorem Over.position_lt_recovered (h : s.Over limits tokens) (hs : ¬ s.isAtEnd)
    {r : Except ParseError Expr} (hp : s.parse = (r, s')) :
    s.position < s'.synchronize.position := by
  have hle := h.position_le_of_parse hp
  by_cases hr : s'.rest = []
  · have hlen := h.position_add_length_rest
    have hlen' := (h.of_parse hp).position_add_length_rest
    have hpos := List.length_pos_iff.2 fun hnil => hs (h.isAtEnd_iff.2 hnil)
    rw [hr, List.length_nil] at hlen'
    rw [synchronize_eq_self hr]
    omega
  · exact Nat.lt_of_le_of_lt hle (position_lt_synchronize hr)

theorem Over.position_lt_round (h : s.Over limits tokens) (hs : ¬ s.isAtEnd) :
    s.position < s.round.position := by
  rcases hp : s.parse with ⟨e | e, s'⟩
  · rw [round_of_error hp]
    exact h.position_lt_recovered hs hp
  · rw [round_of_ok hp]
    exact position_lt_of_parse_ok hp

theorem Over.exists_rounds {s : Session} (h : s.Over limits tokens) : ∃ n,
    s.position + n ≤ (tokens.takeWhile (!·.isEof)).length ∧ (Session.round^[n] s).isAtEnd ∧
      ∀ i < n, ¬ (Session.round^[i] s).isAtEnd := by
  by_cases hs : s.isAtEnd
  · exact ⟨0, h.position_le_total, hs, fun i hi => absurd hi (Nat.not_lt_zero i)⟩
  · have hlt := h.position_lt_round hs
    have hle := h.round.position_le_total
    obtain ⟨n, hn, hend, hno⟩ := h.round.exists_rounds
    refine ⟨n + 1, by omega, hend, fun i hi => ?_⟩
    cases i with
    | zero => exact hs
    | succ i => exact hno i (Nat.lt_of_succ_lt_succ hi)
termination_by (tokens.takeWhile (!·.isEof)).length - s.position

theorem Over.position_le_iterate (h : s.Over limits tokens) {n : Nat}
    (hn : ∀ i < n, ¬ (Session.round^[i] s).isAtEnd) {i j : Nat} (hij : i ≤ j) (hj : j ≤ n) :
    (Session.round^[i] s).position ≤ (Session.round^[j] s).position := by
  induction hij with
  | refl => exact Nat.le_refl _
  | @step j _ ih =>
    have hlt := (h.iterate_round j).position_lt_round (hn j hj)
    rw [Function.iterate_succ_apply']
    exact Nat.le_of_lt (Nat.lt_of_le_of_lt (ih (Nat.le_of_succ_le hj)) hlt)

/-- The token that a round blames lies before all that the later rounds see. -/
theorem Over.position_lt_of_error (h : s.Over limits tokens) {n : Nat}
    (hn : ∀ i < n, ¬ (Session.round^[i] s).isAtEnd) {i j : Nat} (hij : i < j) (hj : j < n)
    {e : ParseError} (hp : (Session.round^[i] s).parse = (.error e, s')) :
    s'.position < (Session.round^[j] s).position := by
  have hnext : Session.round^[i + 1] s = s'.synchronize := by
    rw [Function.iterate_succ_apply', round_of_error hp]
  have hrest : s'.rest ≠ [] := fun hr => by
    have hend : s'.isAtEnd := ((h.iterate_round i).of_parse hp).isAtEnd_iff.2 hr
    rw [← synchronize_eq_self hr, ← hnext] at hend
    exact hn (i + 1) (Nat.lt_of_le_of_lt hij hj) hend
  have hlt := position_lt_synchronize hrest
  rw [← hnext] at hlt
  exact Nat.lt_of_lt_of_le hlt (h.position_le_iterate hn hij (Nat.le_of_lt hj))

end Rounds

/-- The rounds from anywhere in a session come to the end, after no more of them than tokens are
left before the end of input. Each moves on, never past the end, and no two blame the same token. -/
theorem recovery_progress (limits : Limits) (tokens : List Token) (actions : List Action) :
    let s := (start limits tokens).run actions
    let total := (tokens.takeWhile (!·.isEof)).length
    ∃ n, s.position + n ≤ total ∧ (Session.round^[n] s).isAtEnd ∧
      (∀ i < n, let r := Session.round^[i] s
        ¬ r.isAtEnd ∧ r.position < (Session.round^[i + 1] s).position ∧
          (∀ e s', r.parse = (.ok e, s') → r.position < s'.position ∧ s'.position ≤ total) ∧
          ∀ e s', r.parse = (.error e, s') → s'.peek = e.token ∧ r.position ≤ s'.position ∧
            s'.position ≤ s'.synchronize.position ∧ r.position < s'.synchronize.position ∧
            s'.synchronize.position ≤ total) ∧
      ∀ i j e e' s₁ s₂, i < j → j < n → (Session.round^[i] s).parse = (.error e, s₁) →
        (Session.round^[j] s).parse = (.error e', s₂) → s₁.position < s₂.position := by
  intro s total
  have h : s.Over limits tokens := over_run limits tokens actions
  obtain ⟨n, htotal, hend, hno⟩ := h.exists_rounds
  refine ⟨n, htotal, hend, fun i hi => ?_, fun i j e e' s₁ s₂ hij hj hp hp' => ?_⟩
  · have hr := h.iterate_round i
    refine ⟨hno i hi, ?_, fun e s' hp => ?_, fun e s' hp => ?_⟩
    · rw [Function.iterate_succ_apply']
      exact hr.position_lt_round (hno i hi)
    · exact ⟨position_lt_of_parse_ok hp, (hr.of_parse hp).position_le_total⟩
    · exact ⟨peek_of_parse hp, hr.position_le_of_parse hp, s'.position_le_synchronize,
        hr.position_lt_recovered (hno i hi) hp,
        ((hr.of_parse hp).act .synchronize).position_le_total⟩
  · exact Nat.lt_of_lt_of_le (h.position_lt_of_error hno hij hj hp)
      ((h.iterate_round j).position_le_of_parse hp')

end Session

end Lox
