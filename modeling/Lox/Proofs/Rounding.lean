import Lox.Number.Decimal
import Mathlib.Algebra.Order.Field.Rat
import Mathlib.Algebra.Order.Group.Unbundled.Abs
import Mathlib.Tactic.FieldSimp
import Mathlib.Tactic.Linarith
import Mathlib.Tactic.NormNum
import Mathlib.Tactic.Positivity

/-!
# Rounding to the nearest magnitude

The rank of a magnitude holds the two fields of the format, and `Magnitude.value` is what these
stand for. `Magnitude.Nearest` says to which magnitude a value is rounded: to the nearest, of two
equally near to the one with the even significand, and to infinity from halfway between the largest
finite magnitude and `2 ^ 1024` on.

The proofs count in units of `2 ^ -1074`. A value reaches a rank if it lies beyond the middle to the
rank before, or on it if the rank is even (`Magnitude.Reaches`); it is rounded to the last rank that
it reaches (`Magnitude.Rounds`), which is the nearest one. `Decimal.rounds_nearest` is the result
for decimals of any length.
-/

namespace Lox

section Powers

theorem powTwo_add (j k : Nat) : powTwo (j + k) = powTwo j * powTwo k := Nat.pow_add 2 j k

theorem powTwo_succ (k : Nat) : powTwo (k + 1) = powTwo k * 2 :=
  powTwo_add k 1

theorem powTwo_le {j k : Nat} (h : j ≤ k) : powTwo j ≤ powTwo k :=
  Nat.pow_le_pow_right (by decide) h

theorem powTen_le {j k : Nat} (h : j ≤ k) : powTen j ≤ powTen k :=
  Nat.pow_le_pow_right (by decide) h

theorem cast_powTwo (k : Nat) : (powTwo k : ℚ) = 2 ^ k := Nat.cast_pow 2 k

theorem cast_powTen (k : Nat) : (powTen k : ℚ) = 10 ^ k := Nat.cast_pow 10 k

theorem cast_unitsInOne_pos : (0 : ℚ) < unitsInOne := by exact_mod_cast powTwo_pos 1074

end Powers

namespace Magnitude

theorem eq_of_rank_eq {m m' : Magnitude} (h : m.rank = m'.rank) : m = m' := by
  cases m
  cases m'
  congr

section Units

theorem unitsAt_mul_add {k s : Nat} (hs : s < 2 * binadeSize) (hk : k = 0 ∨ binadeSize ≤ s) :
    unitsAt (k * binadeSize + s) = s * powTwo k := by
  have hd : (k * binadeSize + s) / binadeSize - 1 = k := by
    rw [Nat.mul_comm, Nat.mul_add_div (by decide)]
    simp only [binadeSize] at hs hk ⊢
    omega
  simp only [unitsAt, hd, Nat.add_sub_cancel_left]

/-- A rank is a number of doublings and a significand. -/
theorem exists_significand (rank : Nat) : ∃ s, rank = (rank / binadeSize - 1) * binadeSize + s ∧
    s < 2 * binadeSize ∧ (rank / binadeSize - 1 = 0 ∨ binadeSize ≤ s) := by
  refine ⟨rank - (rank / binadeSize - 1) * binadeSize, ?_, ?_, ?_⟩ <;> simp only [binadeSize] <;>
    omega

theorem unitsAt_zero : unitsAt 0 = 0 := by decide

theorem unitsAt_succ (rank : Nat) :
    unitsAt (rank + 1) = unitsAt rank + powTwo (rank / binadeSize - 1) := by
  obtain ⟨s, hr, hs, hk⟩ := exists_significand rank
  generalize rank / binadeSize - 1 = k at hr hk ⊢
  subst hr
  rw [unitsAt_mul_add hs hk, Nat.add_assoc]
  by_cases hlast : s + 1 < 2 * binadeSize
  · rw [unitsAt_mul_add hlast (hk.imp_right Nat.le_succ_of_le), Nat.succ_mul]
  -- the next rank begins another binade
  · obtain rfl : s = 2 * binadeSize - 1 := by omega
    have hnext : k * binadeSize + (2 * binadeSize - 1 + 1) = (k + 1) * binadeSize + binadeSize := by
      simp only [binadeSize]
      omega
    rw [hnext, unitsAt_mul_add (by decide) (.inr (Nat.le_refl _))]
    rw [powTwo_succ]
    simp only [binadeSize]
    omega

theorem unitsAt_strictMono : StrictMono unitsAt :=
  strictMono_nat_of_lt_succ fun rank => by
    have := powTwo_pos (rank / binadeSize - 1)
    rw [unitsAt_succ]
    omega

theorem rankAt_bounds (units : Nat) :
    unitsAt (rankAt units) ≤ units ∧ units < unitsAt (rankAt units + 1) := by
  have hpos := powTwo_pos (units.log2 - 52)
  have hlog : units < powTwo (units.log2 + 1) := Nat.lt_log2_self
  have hs : units / powTwo (units.log2 - 52) < 2 * binadeSize := by
    rw [Nat.div_lt_iff_lt_mul hpos]
    refine Nat.lt_of_lt_of_le hlog ?_
    rw [show 2 * binadeSize = powTwo 53 from rfl, ← powTwo_add]
    exact powTwo_le (by omega)
  have hk : units.log2 - 52 = 0 ∨ binadeSize ≤ units / powTwo (units.log2 - 52) := by
    refine or_iff_not_imp_left.2 fun hne => ?_
    have hu : units ≠ 0 := by
      rintro rfl
      exact hne rfl
    rw [Nat.le_div_iff_mul_le hpos]
    refine Nat.le_trans (Nat.le_of_eq ?_) (Nat.log2_self_le hu)
    rw [show binadeSize = powTwo 52 from rfl, ← powTwo_add]
    exact congrArg powTwo (by omega)
  have hd : rankAt units / binadeSize - 1 = units.log2 - 52 := by
    simp only [rankAt]
    generalize units.log2 - 52 = k at hs hk ⊢
    generalize units / powTwo k = s at hs hk ⊢
    simp only [binadeSize] at hs hk ⊢
    omega
  have hat : unitsAt (rankAt units) =
      units / powTwo (units.log2 - 52) * powTwo (units.log2 - 52) := unitsAt_mul_add hs hk
  rw [unitsAt_succ, hd, hat]
  exact ⟨Nat.div_mul_le_self _ _, Nat.lt_div_mul_add hpos⟩

end Units

section Value

/-- The eleven bits of the format that say how often the spacing has doubled. -/
def exponentField (m : Magnitude) : Nat := m.rank / binadeSize

/-- The fifty-two bits of the format that say how many spacings are added to a power of two. -/
def fractionField (m : Magnitude) : Nat := m.rank % binadeSize

/-- The fraction, behind a one unless the magnitude is subnormal. -/
def significand (m : Magnitude) : Nat :=
  if m.exponentField = 0 then m.fractionField else binadeSize + m.fractionField

/-- The value of a finite magnitude. -/
def value (m : Magnitude) : ℚ := m.significand * 2 ^ ((max m.exponentField 1 : ℕ) - 1075 : ℤ)

/-- `m` is the magnitude to which `q` is rounded. -/
structure Nearest (q : ℚ) (m : Magnitude) : Prop where
  overflow : ¬ m.isFinite ↔ (2 : ℚ) ^ 1024 - 2 ^ 970 ≤ q
  distance : m.isFinite → ∀ m' : Magnitude, m'.isFinite → |q - m.value| ≤ |q - m'.value|
  even_of_tie : m.isFinite → ∀ m' : Magnitude, m'.isFinite → m' ≠ m →
    |q - m'.value| = |q - m.value| → m.significand % 2 = 0

variable (m : Magnitude)

theorem units_eq_significand :
    m.units = m.significand * powTwo (max m.exponentField 1 - 1) := by
  have hd : m.rank / binadeSize - 1 = max m.exponentField 1 - 1 := by
    simp only [exponentField]
    omega
  simp only [units, unitsAt, hd]
  congr 1
  unfold significand
  split <;> simp only [exponentField, fractionField, binadeSize] at * <;> omega

theorem significand_mod_two : m.significand % 2 = m.rank % 2 := by
  unfold significand
  split <;> simp only [exponentField, fractionField, binadeSize] at * <;> omega

theorem value_eq : m.value = m.units / unitsInOne := by
  have hz : ((max m.exponentField 1 : ℕ) - 1075 : ℤ) =
      ((max m.exponentField 1 - 1 : ℕ) : ℤ) - (1074 : ℕ) := by
    omega
  rw [value, hz, zpow_sub₀ two_ne_zero, zpow_natCast, zpow_natCast, units_eq_significand,
    ← mul_div_assoc, Nat.cast_mul, cast_powTwo, cast_powTwo]

end Value

section Reaches

/-- Whether `x` units lie beyond the middle between a rank and the one before, or on it, and the
rank is the even one of the two. -/
def Reaches (x : ℚ) (rank : Nat) : Prop :=
  (unitsAt (rank - 1) + unitsAt rank : ℕ) < 2 * x ∨
    (unitsAt (rank - 1) + unitsAt rank : ℕ) = 2 * x ∧ rank % 2 = 0

/-- The rank of `m` is the last one that `x` units reach. -/
def Rounds (x : ℚ) (m : Magnitude) : Prop :=
  Reaches x m.rank ∧ (m.isFinite → ¬ Reaches x (m.rank + 1))

variable {x : ℚ} {rank : Nat} {m m' : Magnitude}

theorem Reaches.le (h : Reaches x rank) : (unitsAt (rank - 1) + unitsAt rank : ℕ) ≤ 2 * x :=
  h.elim le_of_lt fun h => le_of_eq h.1

theorem not_reaches_succ_iff : ¬ Reaches x (rank + 1) ↔
    2 * x < (unitsAt rank + unitsAt (rank + 1) : ℕ) ∨
      2 * x = (unitsAt rank + unitsAt (rank + 1) : ℕ) ∧ rank % 2 = 0 := by
  rw [Reaches, Nat.add_sub_cancel, not_or, not_lt, le_iff_lt_or_eq]
  constructor
  · rintro ⟨h | h, hodd⟩
    · exact .inl h
    · have hodd' : ¬ (rank + 1) % 2 = 0 := fun he => hodd ⟨h.symm, he⟩
      exact .inr ⟨h, by omega⟩
  · rintro (h | ⟨h, heven⟩)
    · exact ⟨.inl h, fun he => absurd he.1 (ne_of_gt h)⟩
    · exact ⟨.inr h, fun he => by omega⟩

theorem le_of_not_reaches_succ (h : ¬ Reaches x (rank + 1)) :
    2 * x ≤ (unitsAt rank + unitsAt (rank + 1) : ℕ) :=
  (not_reaches_succ_iff.1 h).elim le_of_lt fun h => le_of_eq h.1

theorem reaches_of_unitsAt_le (h : unitsAt rank ≤ x) : Reaches x rank := by
  rcases rank with _ | rank
  · rcases eq_or_lt_of_le h with heq | hlt
    · exact .inr ⟨by simp [← heq, unitsAt_zero], rfl⟩
    · refine .inl ?_
      simp only [Nat.zero_sub, unitsAt_zero, Nat.add_zero, Nat.cast_zero] at hlt ⊢
      linarith
  · refine .inl ?_
    have hlt : (unitsAt rank : ℚ) < unitsAt (rank + 1) := by
      exact_mod_cast unitsAt_strictMono (Nat.lt_succ_self rank)
    rw [Nat.add_sub_cancel, Nat.cast_add]
    linarith

theorem not_reaches_of_le_unitsAt (h : x ≤ unitsAt rank) : ¬ Reaches x (rank + 1) := by
  refine not_reaches_succ_iff.2 (.inl ?_)
  have hlt : (unitsAt rank : ℚ) < unitsAt (rank + 1) := by
    exact_mod_cast unitsAt_strictMono (Nat.lt_succ_self rank)
  rw [Nat.cast_add]
  linarith

theorem Reaches.mono {r : Nat} (h : Reaches x rank) (hr : r ≤ rank) : Reaches x r := by
  rcases Nat.eq_or_lt_of_le hr with rfl | hlt
  · exact h
  · obtain ⟨k, rfl⟩ := Nat.exists_eq_add_of_lt hlt
    refine reaches_of_unitsAt_le ?_
    have hle : (unitsAt r : ℚ) ≤ unitsAt (r + k) := by
      exact_mod_cast unitsAt_strictMono.monotone (Nat.le_add_right r k)
    have hle' : (unitsAt (r + k) : ℚ) ≤ unitsAt (r + k + 1) := by
      exact_mod_cast unitsAt_strictMono.monotone (Nat.le_succ _)
    have := h.le
    rw [Nat.add_sub_cancel, Nat.cast_add] at this
    linarith

theorem rounds_ofRank (h : Reaches x rank) (hn : ¬ Reaches x (rank + 1)) :
    Rounds x (ofRank rank) := by
  refine ⟨h.mono (Nat.min_le_left _ _), fun hf => ?_⟩
  have hr : min rank topRank < topRank := of_decide_eq_true hf
  rwa [show (ofRank rank).rank = rank from Nat.min_eq_left (by omega)]

theorem Rounds.unique (h : Rounds x m) (h' : Rounds x m') : m = m' := by
  have key {a b : Magnitude} (ha : Rounds x a) (hb : Rounds x b) : b.rank ≤ a.rank := by
    refine Nat.le_of_not_lt fun hlt => ?_
    have hfin : a.isFinite := decide_eq_true (Nat.lt_of_lt_of_le hlt b.rank_le)
    exact ha.2 hfin (hb.1.mono hlt)
  exact eq_of_rank_eq (Nat.le_antisymm (key h' h) (key h h'))

theorem rounds_units (m : Magnitude) : Rounds m.units m :=
  ⟨reaches_of_unitsAt_le le_rfl, fun _ => not_reaches_of_le_unitsAt le_rfl⟩

end Reaches

section Nearest

variable {x : ℚ} {m : Magnitude}

/-- A value beyond the middle of two others is nearer to the greater one. -/
theorem abs_sub_le_of_middle {a b x : ℚ} (hab : a < b) (h : a + b ≤ 2 * x) :
    |x - b| ≤ |x - a| ∧ (|x - a| = |x - b| → a + b = 2 * x) := by
  rw [abs_of_nonneg (show 0 ≤ x - a by linarith)]
  rcases abs_cases (x - b) with ⟨hx, -⟩ | ⟨hx, -⟩ <;> rw [hx]
  · exact ⟨by linarith, fun he => by linarith⟩
  · exact ⟨by linarith, fun he => by linarith⟩

theorem reaches_topRank_iff :
    Reaches x topRank ↔ ((2 : ℚ) ^ 1024 - 2 ^ 970) * unitsInOne ≤ x := by
  have heven : topRank % 2 = 0 := by decide
  have htop : unitsAt topRank = powTwo 2098 := by decide +kernel
  have hbelow : unitsAt (topRank - 1) + powTwo (2044 + 1) = powTwo 2098 := by decide +kernel
  have hbound : ((2 : ℚ) ^ 1024 - 2 ^ 970) * unitsInOne = powTwo 2098 - powTwo 2044 := by
    rw [sub_mul, ← cast_powTwo, ← cast_powTwo, ← Nat.cast_mul, ← Nat.cast_mul, ← powTwo_add,
      ← powTwo_add]
  have hmiddle : ((unitsAt (topRank - 1) + unitsAt topRank : ℕ) : ℚ) =
      2 * (powTwo 2098 - powTwo 2044) := by
    have hsum : unitsAt (topRank - 1) + unitsAt topRank + 2 * powTwo 2044 = 2 * powTwo 2098 := by
      rw [powTwo_succ] at hbelow
      omega
    have hcast : ((unitsAt (topRank - 1) + unitsAt topRank : ℕ) : ℚ) + 2 * powTwo 2044 =
        2 * powTwo 2098 := by
      exact_mod_cast hsum
    linarith
  rw [Reaches, and_iff_left heven, ← le_iff_lt_or_eq, hbound, hmiddle]
  exact mul_le_mul_iff_right₀ two_pos

theorem Rounds.isFinite_iff (h : Rounds x m) : ¬ m.isFinite ↔ Reaches x topRank := by
  constructor
  · intro hf
    have hr : m.rank = topRank := by
      have := m.rank_le
      have := of_decide_eq_false (Bool.eq_false_iff.2 hf)
      omega
    exact hr ▸ h.1
  · exact fun ht hf => h.2 hf (ht.mono (of_decide_eq_true hf))

/-- The last rank that a value reaches is the nearest, and the even one of two that are. -/
theorem Rounds.distance (h : Rounds x m) (hf : m.isFinite) {m' : Magnitude} (hne : m' ≠ m) :
    |x - m.units| ≤ |x - m'.units| ∧
      (|x - m'.units| = |x - m.units| → m.rank % 2 = 0 ∧ m'.rank % 2 = 1) := by
  have hr : m'.rank ≠ m.rank := fun he => hne (eq_of_rank_eq he)
  have hmono {a b : Nat} (hab : a ≤ b) : (unitsAt a : ℚ) ≤ unitsAt b := by
    exact_mod_cast unitsAt_strictMono.monotone hab
  have hinj {a b : Nat} (hab : (unitsAt a : ℚ) = unitsAt b) : a = b :=
    unitsAt_strictMono.injective (by exact_mod_cast hab)
  simp only [units]
  rcases Nat.lt_or_gt_of_ne hr with hlt | hgt
  · have hvalue : (unitsAt m'.rank : ℚ) < unitsAt m.rank := by
      exact_mod_cast unitsAt_strictMono hlt
    have hbefore := hmono (show m'.rank ≤ m.rank - 1 by omega)
    have hreach := h.1
    rw [Reaches, Nat.cast_add] at hreach
    have hle : (unitsAt (m.rank - 1) : ℚ) + unitsAt m.rank ≤ 2 * x :=
      hreach.elim le_of_lt fun he => le_of_eq he.1
    obtain ⟨hdist, htie⟩ := abs_sub_le_of_middle hvalue (by linarith)
    refine ⟨hdist, fun he => ?_⟩
    have hmiddle := htie he
    -- nothing is left between the other rank and the one before
    have hnext : m'.rank = m.rank - 1 := hinj (by linarith)
    rcases hreach with hlt' | ⟨-, heven⟩
    · linarith
    · exact ⟨heven, by omega⟩
  · have hvalue : (unitsAt m.rank : ℚ) < unitsAt m'.rank := by
      exact_mod_cast unitsAt_strictMono hgt
    have hbehind := hmono (show m.rank + 1 ≤ m'.rank from hgt)
    have hreach := not_reaches_succ_iff.1 (h.2 hf)
    rw [Nat.cast_add] at hreach
    have hle : 2 * x ≤ (unitsAt m.rank : ℚ) + unitsAt (m.rank + 1) :=
      hreach.elim le_of_lt fun he => le_of_eq he.1
    obtain ⟨hdist, htie⟩ := abs_sub_le_of_middle (x := -x) (neg_lt_neg hvalue) (by linarith)
    rw [neg_sub_neg, neg_sub_neg, abs_sub_comm, abs_sub_comm _ x] at hdist htie
    refine ⟨hdist, fun he => ?_⟩
    have hmiddle := htie he
    have hnext : m'.rank = m.rank + 1 := hinj (by linarith)
    rcases hreach with hlt' | ⟨-, heven⟩
    · linarith
    · exact ⟨heven, by omega⟩

theorem abs_sub_units (q : ℚ) (m : Magnitude) :
    |q * unitsInOne - m.units| = |q - m.value| * unitsInOne := by
  have hpos := cast_unitsInOne_pos
  have hsub : q * unitsInOne - m.units = (q - m.value) * unitsInOne := by
    rw [value_eq, sub_mul, div_mul_cancel₀ _ hpos.ne']
  rw [hsub, abs_mul, abs_of_pos hpos]

theorem Rounds.overflow_iff {q : ℚ} (h : Rounds (q * unitsInOne) m) :
    ¬ m.isFinite ↔ (2 : ℚ) ^ 1024 - 2 ^ 970 ≤ q := by
  rw [h.isFinite_iff, reaches_topRank_iff]
  exact mul_le_mul_iff_left₀ cast_unitsInOne_pos

theorem Rounds.nearest {q : ℚ} (h : Rounds (q * unitsInOne) m) : Nearest q m := by
  refine ⟨h.overflow_iff, fun hf m' _ => ?_, fun hf m' _ hne htie => ?_⟩
  · by_cases hne : m' = m
    · rw [hne]
    · have hdist := (h.distance hf hne).1
      rw [abs_sub_units, abs_sub_units] at hdist
      exact le_of_mul_le_mul_right hdist cast_unitsInOne_pos
  · rw [significand_mod_two]
    refine ((h.distance hf hne).2 ?_).1
    rw [abs_sub_units, abs_sub_units, htie]

theorem eq_infinity (h : ¬ m.isFinite) : m = infinity := by
  have hle := m.rank_le
  have hge := of_decide_eq_false (Bool.eq_false_iff.2 h)
  exact eq_of_rank_eq (Nat.le_antisymm hle (Nat.le_of_not_lt hge))

/-- There is no other nearest magnitude. -/
theorem Rounds.nearest_iff {q : ℚ} {m' : Magnitude} (h : Rounds (q * unitsInOne) m) :
    Nearest q m' ↔ m' = m := by
  refine ⟨fun h' => ?_, fun he => he ▸ h.nearest⟩
  by_contra hne
  have hfinite : m'.isFinite ↔ m.isFinite := not_iff_not.1 (h'.overflow.trans h.overflow_iff.symm)
  by_cases hf : m.isFinite
  · have hf' := hfinite.2 hf
    obtain ⟨hdist, htie⟩ := h.distance hf hne
    have hle := h'.distance hf' m hf
    have heq : |q - m.value| = |q - m'.value| := by
      rw [abs_sub_units, abs_sub_units] at hdist
      exact le_antisymm (le_of_mul_le_mul_right hdist cast_unitsInOne_pos) hle
    have heven := h'.even_of_tie hf' m hf (Ne.symm hne) heq
    have hodd := (htie (by rw [abs_sub_units, abs_sub_units, heq])).2
    rw [significand_mod_two] at heven
    omega
  · exact hne ((eq_infinity (mt hfinite.1 hf)).trans (eq_infinity hf).symm)

end Nearest

theorem rounds_ofRatio (num : Nat) {den : Nat} (hden : 0 < den) :
    Rounds (num * unitsInOne / den) (ofRatio num den) := by
  have hpos : (0 : ℚ) < den := by exact_mod_cast hden
  obtain ⟨hle, hlt⟩ := rankAt_bounds (num * unitsInOne / den)
  unfold ofRatio
  simp only
  rw [← Nat.cast_mul]
  generalize num * unitsInOne = units at hle hlt ⊢
  generalize rankAt (units / den) = below at hle hlt ⊢
  have hlow : (unitsAt below : ℚ) ≤ units / den := by
    rw [le_div_iff₀ hpos]
    exact_mod_cast (Nat.le_div_iff_mul_le hden).1 hle
  have hhigh : (units : ℚ) / den < unitsAt (below + 1) := by
    rw [div_lt_iff₀ hpos]
    exact_mod_cast (Nat.div_lt_iff_lt_mul hden).1 hlt
  have hmiddle : (2 * units < (unitsAt below + unitsAt (below + 1)) * den ∨
      2 * units = (unitsAt below + unitsAt (below + 1)) * den ∧ below % 2 = 0) ↔
      ¬ Reaches (units / den) (below + 1) := by
    rw [not_reaches_succ_iff, ← mul_div_assoc, div_lt_iff₀ hpos, div_eq_iff hpos.ne']
    norm_cast
  by_cases h : Reaches (units / den) (below + 1)
  · rw [if_neg (mt hmiddle.1 (not_not.2 h))]
    exact rounds_ofRank h (not_reaches_of_le_unitsAt hhigh.le)
  · rw [if_pos (hmiddle.2 h)]
    exact rounds_ofRank (reaches_of_unitsAt_le hlow) h

end Magnitude

namespace Decimal

open Magnitude

/-- The exact value. -/
def value (d : Decimal) : ℚ := d.coefficient * 10 ^ d.exponent

theorem reaches_topRank_of_large {c e : Nat} (hc : c ≠ 0) (he : 400 ≤ e) :
    Reaches (c * 10 ^ e * unitsInOne) topRank := by
  have hbig : powTwo 1024 ≤ c * powTen e := by
    calc powTwo 1024 ≤ powTen 400 := by decide +kernel
      _ ≤ powTen e := powTen_le he
      _ ≤ c * powTen e := Nat.le_mul_of_pos_left _ (Nat.pos_of_ne_zero hc)
  have hcast : (2 : ℚ) ^ 1024 ≤ c * 10 ^ e := by
    rw [← cast_powTwo, ← cast_powTen]
    exact_mod_cast hbig
  rw [reaches_topRank_iff]
  refine mul_le_mul_of_nonneg_right (le_trans (sub_le_self _ ?_) hcast) cast_unitsInOne_pos.le
  positivity

theorem not_reaches_one_of_small {c e : Nat} (h : c.log2 + 1077 ≤ 3 * e) :
    ¬ Reaches (c / 10 ^ e * unitsInOne) 1 := by
  have hsmall : 2 * (c * unitsInOne) < powTen e := by
    calc 2 * (c * unitsInOne) < 2 * (powTwo (c.log2 + 1) * unitsInOne) :=
          Nat.mul_lt_mul_of_pos_left
            (Nat.mul_lt_mul_of_pos_right Nat.lt_log2_self (powTwo_pos 1074)) (by decide)
      _ = powTwo (c.log2 + 1 + 1074 + 1) := by
          rw [powTwo_succ (c.log2 + 1 + 1074), powTwo_add (c.log2 + 1), Nat.mul_comm]
      _ ≤ powTwo (3 * e) := powTwo_le (by omega)
      _ = 8 ^ e := Nat.pow_mul 2 3 e
      _ ≤ powTen e := Nat.pow_le_pow_left (by decide) e
  have hunits : unitsAt 0 + unitsAt (0 + 1) = 1 := by decide
  refine not_reaches_succ_iff.2 (.inl ?_)
  rw [hunits, Nat.cast_one, div_mul_eq_mul_div, ← mul_div_assoc, div_lt_one (by positivity),
    ← cast_powTen]
  exact_mod_cast hsmall

/-- A decimal of any length is rounded to the nearest magnitude. -/
theorem rounds_nearest (d : Decimal) : Rounds (d.value * unitsInOne) d.nearest := by
  obtain ⟨c, e | e⟩ := d
  · have hvalue : value ⟨c, .ofNat e⟩ = c * 10 ^ e := by
      simp only [value, Int.ofNat_eq_natCast, zpow_natCast]
    rw [hvalue]
    simp only [nearest]
    split_ifs with hc he
    · have hzero : (c * 10 ^ e * unitsInOne : ℚ) = zero.units := by
        rw [hc, Nat.cast_zero, zero_mul, zero_mul]
        exact Nat.cast_zero.symm
      rw [hzero]
      exact rounds_units zero
    · refine ⟨reaches_topRank_of_large hc he, fun hf => ?_⟩
      cases hf
    · have h := rounds_ofRatio (c * powTen e) Nat.one_pos
      rwa [Nat.cast_mul, cast_powTen, Nat.cast_one, div_one] at h
  · have hvalue : value ⟨c, .negSucc e⟩ = c / 10 ^ (e + 1) := by
      simp only [value, zpow_negSucc, div_eq_mul_inv]
    rw [hvalue]
    simp only [nearest]
    split_ifs with he
    · refine ⟨reaches_of_unitsAt_le ?_, fun _ => not_reaches_one_of_small he⟩
      show ((unitsAt 0 : ℕ) : ℚ) ≤ _
      rw [unitsAt_zero, Nat.cast_zero]
      exact mul_nonneg (by positivity) cast_unitsInOne_pos.le
    · have h := rounds_ofRatio c (powTen_pos (e + 1))
      rwa [mul_div_right_comm, cast_powTen] at h

end Decimal

end Lox
