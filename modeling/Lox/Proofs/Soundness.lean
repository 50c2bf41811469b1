import Lox.Proofs.Reading
import Lox.Proofs.Spelling

/-!
# What the rules read is in the grammar

A tree that a rule ends with is one of the grammar, spelled by exactly the tokens taken, and the
token that follows is no operator the rule could have gone on with (`Reads.sound`).

A chain under way has more behind it than the tokens it still takes: `Begun` says that what stands
`before` them spells the operands joined so far. Every link adds an operator and an operand.
-/

namespace Lox

/-- No operator that joins a chain of at most this rank comes next. -/
def Closed (rank : Nat) (rest : List Token) : Prop :=
  ∀ t ∈ rest.head?, ∀ l, t.kind.level? = some l → rank < (Rule.chain l).rank

namespace Closed

theorem mono {m n : Nat} {rest : List Token} (h : Closed n rest) (hm : m ≤ n) :
    Closed m rest :=
  fun t ht l hl => Nat.lt_of_le_of_lt hm (h t ht l hl)

/-- Between the rank of a level's operands and its own there is no third. -/
theorem chain {l : Level} {rest : List Token} (h : Closed l.operand.rank rest)
    (hn : ∀ t ∈ rest.head?, t.kind.level? ≠ some l) : Closed (Rule.chain l).rank rest := by
  intro t ht l' hl'
  have hlt := h t ht l' hl'
  have hne : l' ≠ l := fun he => hn t ht (he ▸ hl')
  revert hlt hne
  cases l <;> cases l' <;> decide

end Closed

theorem closed_nil (n : Nat) : Closed n [] := fun _ ht => by cases ht

theorem closed_one (rest : List Token) : Closed 1 rest := fun _ _ l _ => by
  cases l <;> decide

namespace Rule

open ParseState

/-- The rank of the loosest chain that a rule can read. -/
def reach : Rule → Nat
  | link l _ _ => (chain l).rank
  | r => r.rank

/-- What has been read when a rule begins at `rest`: the operands of a chain under way, and nothing
otherwise. -/
def Begun : Rule → List Token → List Token → Prop
  | link l left _, before, rest => left.Spells before ∧ left.Grammatical ∧
      left.tier ≤ (chain l).rank ∧ Closed l.operand.rank rest
  | _, before, _ => before = []

@[simp] theorem reach_operand (l : Level) : l.operand.reach = l.operand.rank := by cases l <;> rfl

theorem begun_operand (l : Level) (rest : List Token) : l.operand.Begun [] rest := by
  cases l <;> rfl

variable {c : Setting} {r : Rule} {s : ParseState} {o : Except ParseError Expr × ParseState}

/-- A rule that ends with a tree has read it from the front of the tokens, as far as it goes. -/
theorem Reads.sound (h : Reads c r s o) :
    ∀ {e : Expr} {s' : ParseState}, o = (.ok e, s') → ∀ {before : List Token},
      r.Begun before s.rest → ∃ ts, s.rest = ts ++ s'.rest ∧ e.Spells (before ++ ts) ∧
        e.Grammatical ∧ e.tier ≤ r.reach ∧ Closed r.reach s'.rest := by
  induction h with
  | chainFail | linkTall | linkFail | unaryDeep | groupDeep | groupFail | groupOpen | noOperand =>
    intro e s' ho
    cases ho
  | @chain l s s₁ left o _ _ ih ih' =>
    intro e s' ho before hb
    cases hb
    obtain ⟨ls, hls, hsp, hg, ht, hc⟩ := ih rfl (begun_operand l s.rest)
    rw [reach_operand] at ht hc
    have hlt := rank_operand_lt l
    obtain ⟨ts, hts, h⟩ := ih' ho ⟨hsp, hg, by omega, hc⟩
    exact ⟨ls ++ ts, by rw [hls, hts, List.append_assoc], h⟩
  | linkEnd hn =>
    rintro e s' ho before ⟨hsp, hg, ht, hc⟩
    cases ho
    exact ⟨[], rfl, by rwa [List.append_nil], hg, ht, hc.chain hn⟩
  | @link l left right folds s s₁ op ts o hs hl _ _ _ ih ih' =>
    rintro e s' ho before ⟨hsp, hg, ht, hc⟩
    obtain ⟨rs, hrs, hspr, hgr, htr, hcr⟩ := ih rfl (begun_operand l _)
    rw [reach_operand] at htr hcr
    have hlt := rank_operand_lt l
    have hb :
        (Rule.link l (.binary left op right) (folds + 1)).Begun (before ++ op :: rs) s₁.rest :=
      ⟨.binary hsp hspr, ⟨l, hl, ht, by omega, hg, hgr⟩, Nat.le_of_eq (Expr.tier_binary hl), hcr⟩
    obtain ⟨us, hus, hspe, h⟩ := ih' ho hb
    refine ⟨op :: rs ++ us, ?_, by simpa using hspe, h⟩
    simp only [rest_grow, rest_advance, hs, List.tail_cons] at hrs
    rw [hs, hrs, hus, List.cons_append, List.cons_append, List.append_assoc]
  | @unary s s₁ op ts r hs hp _ _ ih =>
    intro e s' ho before hb
    cases hb
    rcases r with _ | operand
    · cases ho
    · cases ho
      obtain ⟨us, hus, hsp, hg, ht, hc⟩ := ih rfl rfl
      simp only [rest_enter, rest_advance, hs, List.tail_cons] at hus
      exact ⟨op :: us, by rw [hs, hus]; rfl, .unary hsp, ⟨hp, ht, hg⟩, Nat.le_refl _, hc⟩
  | plain _ _ ih =>
    intro e s' ho before hb
    obtain ⟨ts, hts, hsp, hg, ht, -⟩ := ih ho hb
    exact ⟨ts, hts, hsp, hg, Nat.le_succ_of_le ht, closed_one _⟩
  | @group s s₁ opening closing ts us inner hs hk _ _ hr hc ih =>
    intro e s' ho before hb
    cases hb
    cases ho
    obtain ⟨is, his, hsp, hg, -, -⟩ := ih rfl rfl
    simp only [rest_enter, rest_advance, hs, List.tail_cons] at his
    refine ⟨opening :: is ++ [closing], ?_, .group hk hc hsp, hg, Nat.le_refl _, ?_⟩
    · rw [hs, his, hr]
      simp [hr]
    · exact (closed_one _).mono (by decide)
  | @literal s t ts v hs hv =>
    intro e s' ho before hb
    cases hb
    cases ho
    refine ⟨[t], by simp [hs], .literal (Token.value?_eq_some_iff.1 hv), trivial, Nat.le_refl _, ?_⟩
    exact (closed_one _).mono (by decide)

end Rule

end Lox
