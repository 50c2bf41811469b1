import Lox.Proofs.Trees

/-!
# How tall a tree can get

The limit of 1024 levels is meant for `Expr.height`, the operators and groups above one another.
What a parse compares with it is `Expr.charge`: an operand of a chain is charged for the operators
of the chain that stand before it, not for those that its tree ends up below. Where no operand is
too tall for that, which is what `Expr.Counted` says, no level is missed (`Expr.height_le_charge`).

Else a chain can be taller than it is charged for by as many levels as it has operators, and the
chains of the four levels stand around one another between any two nestings. `Expr.tallest` adds
this up: a tree that the limits admit has a height of at most 495488 (`Expr.height_le_of_admits`).
-/

namespace Lox

namespace Expr

/-- The most operators and groups above one another. -/
def height : Expr → Nat
  | literal _ => 0
  | unary _ e => e.height + 1
  | binary left _ right => max left.height right.height + 1
  | group e => e.height + 1

/-- The most prefix operators and groups above one another. -/
def nesting : Expr → Nat
  | literal _ => 0
  | unary _ e => e.nesting + 1
  | binary left _ right => max left.nesting right.nesting
  | group e => e.nesting + 1

/-- The most levels counted at once where the tree is read. -/
def charge : Expr → Nat
  | literal _ => 0
  | unary _ e => e.charge + 1
  | binary left op right => max left.charge (left.folds op.kind.level? + 1 + right.charge)
  | group e => e.charge + 1

/-- Whether, on the way down the last operands, the left side of no operator has more levels than
operators of its chain. So it is where all operands but the last of each chain are literals. -/
def Counted : Expr → Prop
  | literal _ => True
  | unary _ e => e.Counted
  | binary left op right => left.height ≤ left.folds op.kind.level? ∧ right.Counted
  | group e => e.Counted

theorem height_le_charge {e : Expr} (h : e.Counted) : e.height ≤ e.charge := by
  induction e with
  | literal => exact Nat.le_refl _
  | unary _ _ ih | group _ ih => exact Nat.succ_le_succ (ih h)
  | binary left op right _ ihr =>
    obtain ⟨hleft, hright⟩ := h
    have hr := ihr hright
    simp only [height, charge]
    omega

end Expr

theorem Limits.admits_iff {N H n h : Nat} {e : Expr} (hn : n ≤ N) (hh : h ≤ H) :
    (⟨some N, some H⟩ : Limits).Admits e n h ↔ n + e.nesting ≤ N ∧ h + e.charge ≤ H := by
  induction e generalizing n h with
  | literal => simp [Admits, Expr.nesting, Expr.charge, hn, hh]
  | unary _ _ ih | group _ ih =>
    simp only [Admits, reached, Option.any_some, decide_eq_true_eq, Expr.nesting, Expr.charge]
    constructor
    · rintro ⟨h1, h2, ha⟩
      rw [ih (by omega) (by omega)] at ha
      omega
    · rintro ⟨h1, h2⟩
      refine ⟨by omega, by omega, ?_⟩
      rw [ih (by omega) (by omega)]
      omega
  | binary left op right ihl ihr =>
    simp only [Admits, reached, Option.any_some, decide_eq_true_eq, Expr.nesting, Expr.charge,
      ihl hn hh]
    constructor
    · rintro ⟨ha, hf, ha'⟩
      rw [ihr hn (by omega)] at ha'
      omega
    · rintro ⟨h1, h2⟩
      refine ⟨by omega, by omega, ?_⟩
      rw [ihr hn (by omega)]
      omega

theorem Limits.admits_standard_iff {e : Expr} :
    standard.Admits e 0 0 ↔ e.nesting ≤ 128 ∧ e.charge ≤ 1024 := by
  show (⟨some 128, some 1024⟩ : Limits).Admits e 0 0 ↔ _
  rw [admits_iff (Nat.zero_le _) (Nat.zero_le _), Nat.zero_add, Nat.zero_add]

namespace Expr

section Bound

/-- The greatest height of a tree that no operator joins, with `m` nestings and `k` levels left. -/
def tallest : (m k : Nat) → Nat
  | 0, _ => 0
  | m + 1, k => 1 + 4 * (k - 1) + tallest m (k - 1)

theorem tallest_mono (m : Nat) {j k : Nat} (h : j ≤ k) : tallest m j ≤ tallest m k := by
  induction m generalizing j k with
  | zero => exact Nat.le_refl _
  | succ m ih =>
    have := ih (Nat.sub_le_sub_right h 1)
    simp only [tallest]
    omega

/-- In a tree that keeps within `m` nestings and `k` levels, each level of chains adds at most `k`
to the height, and the outermost chain no more than it has operators. -/
theorem height_le {e : Expr} {m k : Nat} (hg : e.Grammatical) (hm : e.nesting ≤ m)
    (hk : e.charge ≤ k) : e.height ≤ (e.tier - 1) * k + tallest m k ∧
      ∀ l, e.tier = (Rule.chain l).rank →
        e.height ≤ e.folds (some l) + ((Rule.chain l).rank - 2) * k + tallest m k := by
  induction e generalizing m k with
  | literal v =>
    exact ⟨Nat.zero_le _, fun l hl => absurd hl (Nat.ne_of_lt (Rule.rank_chain_pos l))⟩
  | unary op e ih =>
    obtain ⟨-, ht, hg⟩ := hg
    simp only [nesting, charge] at hm hk
    obtain ⟨m, rfl⟩ := Nat.exists_eq_add_of_le' (Nat.le_trans (Nat.le_add_left 1 _) hm)
    have hle := (ih hg (m := m) (k := k - 1) (by omega) (by omega)).1
    rw [show e.tier - 1 = 0 from Nat.sub_eq_zero_of_le ht, Nat.zero_mul] at hle
    refine ⟨?_, fun l hl => absurd hl (Nat.ne_of_lt (Rule.unary_lt_chain l))⟩
    simp only [height, tallest]
    omega
  | group e ih =>
    simp only [nesting, charge] at hm hk
    obtain ⟨m, rfl⟩ := Nat.exists_eq_add_of_le' (Nat.le_trans (Nat.le_add_left 1 _) hm)
    have hle := (ih hg (m := m) (k := k - 1) (by omega) (by omega)).1
    have ht : e.tier ≤ 5 := e.tier_le
    have hmul : (e.tier - 1) * (k - 1) ≤ 4 * (k - 1) := Nat.mul_le_mul_right _ (by omega)
    refine ⟨?_, fun l hl => absurd hl (Nat.ne_of_lt (Rule.rank_chain_pos l))⟩
    simp only [height, tallest]
    omega
  | binary left op right ihl ihr =>
    obtain ⟨l, hl, htl, htr, hgl, hgr⟩ := hg
    have ht : (binary left op right).tier = (Rule.chain l).rank := tier_binary hl
    have hlt := Rule.unary_lt_chain l
    rw [Rule.rank_unary] at hlt
    have hfolds : (binary left op right).folds (some l) = left.folds (some l) + 1 := if_pos hl
    simp only [nesting, charge, hl, Nat.max_le] at hm hk
    -- the left operand may be a chain of the same level, and then counts its own operators only
    have hleft : left.height ≤
        left.folds (some l) + ((Rule.chain l).rank - 2) * k + tallest m k := by
      rcases Nat.lt_or_eq_of_le htl with hlt' | heq
      · have hle := (ihl hgl hm.1 hk.1).1
        have hmul : (left.tier - 1) * k ≤ ((Rule.chain l).rank - 2) * k :=
          Nat.mul_le_mul_right _ (by omega)
        omega
      · exact (ihl hgl hm.1 hk.1).2 l heq
    have hright : right.height ≤ ((Rule.chain l).rank - 2) * k + tallest m k := by
      have hle := (ihr hgr hm.2 (k := k - (left.folds (some l) + 1)) (by omega)).1
      have hmul : (right.tier - 1) * (k - (left.folds (some l) + 1)) ≤
          ((Rule.chain l).rank - 2) * k := Nat.mul_le_mul (by omega) (Nat.sub_le _ _)
      have hmono := tallest_mono m (Nat.sub_le k (left.folds (some l) + 1))
      omega
    have hown : (binary left op right).height ≤ (binary left op right).folds (some l) +
        ((Rule.chain l).rank - 2) * k + tallest m k := by
      simp only [height, hfolds]
      omega
    refine ⟨?_, fun l' hl' => ?_⟩
    · have hsucc : ((Rule.chain l).rank - 1) * k = ((Rule.chain l).rank - 2) * k + k := by
        rw [← Nat.succ_mul]
        congr 1
        omega
      rw [ht, hsucc]
      omega
    · cases Rule.rank_chain_injective (ht.symm.trans hl')
      exact hown

theorem height_le_of_admits {e : Expr} (hg : e.Grammatical)
    (ha : Limits.standard.Admits e 0 0) : e.height ≤ 495488 := by
  obtain ⟨hm, hk⟩ := Limits.admits_standard_iff.1 ha
  have hle := (height_le hg hm hk).1
  have ht : e.tier ≤ 5 := e.tier_le
  have hmul : (e.tier - 1) * 1024 ≤ 4 * 1024 := Nat.mul_le_mul_right _ (by omega)
  have htall : tallest 128 1024 = 491392 := by decide +kernel
  omega

end Bound

end Expr

end Lox
