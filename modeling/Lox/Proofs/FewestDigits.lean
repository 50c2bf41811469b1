import Lox.Proofs.ReadBack
import Mathlib.Algebra.Order.Field.Power

/-!
# As few digits as can be

The text of a whole number has all its digits. For any other number the search goes down the places
from that of the first digit, and at each looks at the two multiples next to the value. A decimal
between these two has more digits than they have (`Decimal.WithDigits.apart`), and beyond them
nothing is rounded to the magnitude unless one of them is, since what is rounded to a magnitude has
no gaps (`Magnitude.Takes.between`). So where neither is, no decimal of so many digits is read back,
and the first place at which one is has a nearest decimal of the fewest digits
(`Decimal.fewest_search`).
-/

namespace Lox

namespace Magnitude

/-- Whether `q` is rounded to `m`. -/
def Takes (m : Magnitude) (q : ℚ) : Prop := Rounds (q * unitsInOne) m

section Takes

variable {m : Magnitude} {x y q r z : ℚ} {rank : Nat}

theorem Reaches.of_le (h : Reaches x rank) (hxy : x ≤ y) : Reaches y rank := by
  rcases eq_or_lt_of_le hxy with rfl | hlt
  · exact h
  · exact .inl (by linarith [h.le])

theorem Takes.between (hq : m.Takes q) (hz : m.Takes z) (hqr : q ≤ r) (hrz : r ≤ z) :
    m.Takes r := by
  have hpos := cast_unitsInOne_pos.le
  exact ⟨hq.1.of_le (mul_le_mul_of_nonneg_right hqr hpos),
    fun hf h => hz.2 hf (h.of_le (mul_le_mul_of_nonneg_right hrz hpos))⟩

theorem takes_value (m : Magnitude) : m.Takes m.value := by
  have h := rounds_units m
  rwa [← div_mul_cancel₀ (m.units : ℚ) cast_unitsInOne_pos.ne', ← value_eq] at h

theorem Takes.pos (h : m.Takes q) (hm : 0 < m.value) (hq : 0 ≤ q) : 0 < q := by
  rcases eq_or_lt_of_le hq with rfl | hlt
  · have hzero : Rounds ((zero.value : ℚ) * unitsInOne) zero := takes_value zero
    have hvalue : zero.value = 0 := by
      rw [value_eq]
      exact div_eq_zero_iff.2 (.inl (Nat.cast_eq_zero.2 unitsAt_zero))
    rw [hvalue] at hzero
    rw [h.unique hzero, hvalue] at hm
    exact absurd hm (lt_irrefl 0)
  · exact hlt

end Takes

theorem isWhole_iff {m : Magnitude} : m.isWhole ↔ ∃ n : ℕ, m.value = n := by
  have hpos := cast_unitsInOne_pos.ne'
  simp only [isWhole, beq_iff_eq, value_eq, div_eq_iff hpos]
  constructor
  · intro h
    have hmul := Nat.div_mul_cancel (Nat.dvd_of_mod_eq_zero h)
    exact ⟨m.units / unitsInOne, by exact_mod_cast hmul.symm⟩
  · rintro ⟨n, hn⟩
    rw [show m.units = n * unitsInOne by exact_mod_cast hn, Nat.mul_mod_left]

end Magnitude

namespace Digits

theorem powTen_count_le {n : Nat} (h : n ≠ 0) : powTen (count n) ≤ 10 * n := by
  fun_induction count n with
  | case1 => exact absurd rfl h
  | case2 n _ ih =>
    by_cases hn : n / 10 = 0
    · rw [hn, count, if_pos rfl]
      simp only [powTen, Nat.pow_eq]
      omega
    · have := ih hn
      simp only [powTen, Nat.pow_eq, Nat.pow_succ] at this ⊢
      omega

/-- The digits of a number as the standard library writes them. -/
theorem natText_eq (n : Nat) : natText n = Nat.toDigits 10 n := by
  induction n using Nat.strongRecOn with
  | ind n ih =>
    have hcount : count n = if n = 0 then 0 else count (n / 10) + 1 := by rw [count]
    rw [Nat.toDigits_eq_if (by decide)]
    by_cases h : n < 10
    · have hzero : n / 10 = 0 := by omega
      have hone : max 1 (count n) = 1 := by
        have hend : count 0 = 0 := by rw [count, if_pos rfl]
        rw [hcount, hzero, hend]
        split_ifs <;> rfl
      rw [if_pos h, natText, hone, lastDigits_succ, Nat.mod_eq_of_lt h]
      rfl
    · have hpos : 1 ≤ count (n / 10) := by
        rw [count, if_neg (by omega)]
        omega
      have hmore : max 1 (count n) = max 1 (count (n / 10)) + 1 := by
        rw [hcount, if_neg (by omega)]
        omega
      rw [if_neg h, ← ih (n / 10) (by omega), natText, hmore, lastDigits_succ]
      rfl

/-- How many digits there are from the first that is no zero. -/
def significant (digits : List Char) : Nat := (digits.dropWhile (· == '0')).length

theorem value_pos {c : Char} (h : c.isDigit) (hc : ¬ c == '0') : 0 < value c := by
  obtain ⟨hge, -⟩ := Char.isDigit_iff_toNat.1 h
  have hne : c.toNat ≠ '0'.toNat := fun he => hc (beq_iff_eq.2 (Char.toNat_inj.1 he))
  have hzero : '0'.toNat = 48 := rfl
  simp only [value]
  omega

theorem significant_le {digits : List Char} {n : Nat} (hd : ∀ c ∈ digits, c.isDigit)
    (h : ofDigits digits < 10 ^ n) : significant digits ≤ n := by
  induction digits with
  | nil => exact Nat.zero_le n
  | cons c digits ih =>
    have hcons : ofDigits (c :: digits) = value c * powTen digits.length + ofDigits digits := by
      rw [← List.singleton_append, ofDigits_append]
      simp [ofDigits]
    rw [hcons] at h
    by_cases hc : c == '0'
    · rw [significant, List.dropWhile_cons, if_pos hc]
      exact ih (List.forall_mem_cons.1 hd).2 (by omega)
    · rw [significant, List.dropWhile_cons, if_neg hc]
      have hpos := value_pos (hd c List.mem_cons_self) hc
      have hle := Nat.le_mul_of_pos_left (powTen digits.length) hpos
      have hlt : 10 ^ digits.length < 10 ^ n := by
        simp only [powTen, Nat.pow_eq] at hle h
        omega
      exact (Nat.pow_lt_pow_iff_right (by decide)).1 hlt

end Digits

namespace Decimal

open Magnitude

/-- Whether so many digits write the value, with a dot or zeros before or behind them. -/
def WithDigits (n : ℕ) (q : ℚ) : Prop := ∃ d : Decimal, d.coefficient < 10 ^ n ∧ d.value = q

section Neighbours

variable (m : Magnitude) (c n : ℕ) (e : ℤ)

/-- The last multiple of `10 ^ e` that is not greater than the value, by its coefficient. -/
def below : ℕ := ((Stretch.around m).refine e).value / (Stretch.around m).step e

theorem cast_step : ((c * (Stretch.around m).step e : ℕ) : ℚ) =
    (mk c e).value * (2 * unitsInOne * powTen (-e).toNat) := by
  have hpos : ((powTen (-e).toNat : ℕ) : ℚ) ≠ 0 := by exact_mod_cast (powTen_pos _).ne'
  have htwice := two_mul_value c e
  rw [eq_div_iff hpos] at htwice
  rw [Stretch.step, show (Stretch.around m).scale = 2 * unitsInOne from rfl, ← htwice]
  ring

theorem cast_refine : ((((Stretch.around m).refine e).value : ℕ) : ℚ) =
    m.value * (2 * unitsInOne * powTen (-e).toNat) := by
  have hvalue : ((Stretch.around m).refine e).value = 2 * m.units * powTen (-e).toNat := rfl
  have hunits : (m.units : ℚ) = m.value * unitsInOne := by
    rw [value_eq, div_mul_cancel₀ _ cast_unitsInOne_pos.ne']
  rw [hvalue, Nat.cast_mul, Nat.cast_mul, hunits]
  push_cast
  ring

theorem scale_pos : (0 : ℚ) < 2 * unitsInOne * powTen (-e).toNat :=
  mul_pos (mul_pos two_pos cast_unitsInOne_pos) (by exact_mod_cast powTen_pos _)

theorem step_pos : 0 < (Stretch.around m).step e :=
  Nat.mul_pos (Nat.mul_pos Nat.two_pos (powTwo_pos 1074)) (powTen_pos _)

theorem le_below_iff : c ≤ below m e ↔ (mk c e).value ≤ m.value := by
  rw [below, Nat.le_div_iff_mul_le (step_pos m e), ← Nat.cast_le (α := ℚ), cast_step, cast_refine]
  exact mul_le_mul_iff_left₀ (scale_pos e)

theorem value_below_le : (mk (below m e) e).value ≤ m.value := (le_below_iff _ _ _).1 le_rfl

theorem lt_value_above : m.value < (mk (below m e + 1) e).value :=
  lt_of_not_ge fun h => Nat.not_succ_le_self _ ((le_below_iff m _ e).2 h)

theorem nearer_below_iff : 2 * ((Stretch.around m).refine e).value <
    (2 * below m e + 1) * (Stretch.around m).step e ↔
      m.value - (mk (below m e) e).value < (mk (below m e + 1) e).value - m.value := by
  have hbelow := cast_step m (below m e) e
  have habove := cast_step m (below m e + 1) e
  have hsum : (2 * below m e + 1) * (Stretch.around m).step e =
      below m e * (Stretch.around m).step e + (below m e + 1) * (Stretch.around m).step e := by
    ring
  rw [hsum, ← Nat.cast_lt (α := ℚ), Nat.cast_add, hbelow, habove, Nat.cast_mul, cast_refine,
    Nat.cast_two, ← add_mul, ← mul_assoc, mul_lt_mul_iff_left₀ (scale_pos e)]
  constructor <;> intro h <;> linarith

variable {m c n e}

/-- Where the search goes on, neither of the two multiples next to the value is rounded to it. -/
theorem not_takes_of_multiple? (hf : m.isFinite) (h : (Stretch.around m).multiple? e = none) :
    ¬ m.Takes (mk (below m e) e).value ∧ ¬ m.Takes (mk (below m e + 1) e).value := by
  unfold Stretch.multiple? at h
  simp only [] at h
  split at h <;> try cases h
  rename_i hbelow habove
  exact ⟨fun ht => Bool.eq_false_iff.1 hbelow ((Stretch.contains_iff hf).2 ht),
    fun ht => Bool.eq_false_iff.1 habove ((Stretch.contains_iff hf).2 ht)⟩

/-- Where it stops, it has the nearer of those that are. -/
theorem nearer_of_multiple? (hf : m.isFinite) (h : (Stretch.around m).multiple? e = some c) :
    (c = below m e ∨ c = below m e + 1) ∧
      (m.Takes (mk (below m e) e).value →
        |(mk c e).value - m.value| ≤ m.value - (mk (below m e) e).value) ∧
      (m.Takes (mk (below m e + 1) e).value →
        |(mk c e).value - m.value| ≤ (mk (below m e + 1) e).value - m.value) := by
  have hle := value_below_le m e
  have hlt := (lt_value_above m e).le
  have hbelow : |(mk (below m e) e).value - m.value| = m.value - (mk (below m e) e).value := by
    rw [abs_sub_comm, abs_of_nonneg (sub_nonneg.2 hle)]
  have habove : |(mk (below m e + 1) e).value - m.value| =
      (mk (below m e + 1) e).value - m.value := abs_of_nonneg (sub_nonneg.2 hlt)
  unfold Stretch.multiple? at h
  simp only [] at h
  split at h
  · by_cases hnear : 2 * ((Stretch.around m).refine e).value <
        (2 * below m e + 1) * (Stretch.around m).step e
    · obtain rfl : below m e = c := by
        rw [← Option.some.injEq, ← h]
        exact (congrArg some (if_pos hnear)).symm
      rw [hbelow]
      exact ⟨.inl rfl, fun _ => le_rfl, fun _ => ((nearer_below_iff m e).1 hnear).le⟩
    · obtain rfl : below m e + 1 = c := by
        rw [← Option.some.injEq, ← h]
        exact (congrArg some (if_neg hnear)).symm
      rw [habove]
      exact ⟨.inr rfl, fun _ => le_of_not_gt (mt (nearer_below_iff m e).2 hnear), fun _ => le_rfl⟩
  · rename_i _ hno
    cases h
    refine ⟨.inl rfl, fun _ => hbelow.le, fun ht => ?_⟩
    exact absurd ((Stretch.contains_iff hf).2 ht) (Bool.eq_false_iff.1 hno)
  · rename_i hno _
    cases h
    refine ⟨.inr rfl, fun ht => ?_, fun _ => habove.le⟩
    exact absurd ((Stretch.contains_iff hf).2 ht) (Bool.eq_false_iff.1 hno)
  · cases h

end Neighbours

section Search

variable {m : Magnitude} {c n : ℕ} {e l : ℤ} {q : ℚ}

/-- Beyond the two multiples next to the value, nothing is rounded to it unless one of them is. -/
theorem takes_of_apart (ht : m.Takes q)
    (hq : q ≤ (mk (below m e) e).value ∨ (mk (below m e + 1) e).value ≤ q) :
    m.Takes (mk (below m e) e).value ∧ m.value - (mk (below m e) e).value ≤ |q - m.value| ∨
      m.Takes (mk (below m e + 1) e).value ∧
        (mk (below m e + 1) e).value - m.value ≤ |q - m.value| := by
  have hle := value_below_le m e
  have hlt := (lt_value_above m e).le
  rcases hq with hq | hq
  · refine .inl ⟨ht.between m.takes_value hq hle, ?_⟩
    rw [abs_sub_comm]
    exact le_trans (by linarith) (le_abs_self _)
  · refine .inr ⟨m.takes_value.between ht hlt hq, ?_⟩
    exact le_trans (by linarith) (le_abs_self _)

theorem value_ten_pow (k : ℕ) (e : ℤ) : (mk (10 ^ k) e).value = 10 ^ (k + e) := by
  rw [value, zpow_add₀ (by norm_num), zpow_natCast]
  push_cast
  rfl

/-- A decimal of so few digits is a multiple of the place if it has the magnitude's first one. -/
theorem WithDigits.apart (hq : WithDigits n q) (hl : 10 ^ l ≤ m.value) (he : e ≤ l)
    (hn : n ≤ l - e + 1) :
    q ≤ (mk (below m e) e).value ∨ (mk (below m e + 1) e).value ≤ q := by
  by_contra hno
  obtain ⟨hgt, hlt⟩ := not_or.1 hno
  rw [not_le] at hgt hlt
  obtain ⟨⟨k, f⟩, hk, rfl⟩ := hq
  obtain ⟨j, hj⟩ := Int.eq_ofNat_of_zero_le (sub_nonneg.2 he)
  have hfirst : (10 : ℚ) ^ l ≤ (mk (below m e) e).value := by
    have hle : 10 ^ j ≤ below m e := by
      rw [le_below_iff, value_ten_pow, show (j : ℤ) + e = l by omega]
      exact hl
    calc (10 : ℚ) ^ l = (mk (10 ^ j) e).value := by
          rw [value_ten_pow, show (j : ℤ) + e = l by omega]
      _ ≤ _ := mul_le_mul_of_nonneg_right (by exact_mod_cast hle) (by positivity)
  have hsmall : (mk k f).value < (10 : ℚ) ^ (n + f) := by
    rw [← value_ten_pow]
    exact mul_lt_mul_of_pos_right (by exact_mod_cast hk) (by positivity)
  have hplace : l < n + f :=
    (zpow_lt_zpow_iff_right₀ (by norm_num)).1 (hfirst.trans_lt (hgt.trans hsmall))
  obtain ⟨i, hi⟩ := Int.eq_ofNat_of_zero_le (show 0 ≤ f - e by omega)
  have hmultiple : (mk k f).value = (mk (k * 10 ^ i) e).value := by
    rw [value, value, show f = i + e by omega, zpow_add₀ (by norm_num), zpow_natCast]
    push_cast
    ring
  have hpos : (0 : ℚ) < 10 ^ e := by positivity
  rw [hmultiple] at hgt hlt
  have hgt := lt_of_mul_lt_mul_right hgt hpos.le
  have hlt := lt_of_mul_lt_mul_right hlt hpos.le
  simp only [Nat.cast_lt] at hgt hlt
  omega

theorem withDigits_ten_pow (e : ℤ) : WithDigits 1 (10 ^ e) :=
  ⟨⟨1, e⟩, Nat.one_lt_pow one_ne_zero (by decide), by simp [value]⟩

theorem withDigits_zero_iff : WithDigits 0 q ↔ q = 0 := by
  constructor
  · rintro ⟨⟨k, f⟩, hk, rfl⟩
    obtain rfl : k = 0 := by simpa using hk
    simp [value]
  · rintro rfl
    exact ⟨⟨0, 0⟩, by decide, by simp [value]⟩

theorem below_lt (h : m.value < 10 ^ (n + e)) : below m e < 10 ^ n := by
  refine lt_of_not_ge fun hge => ?_
  have hle := (le_below_iff m (10 ^ n) e).1 hge
  rw [value_ten_pow] at hle
  exact absurd h (not_lt_of_ge hle)

/-- A decimal of `n` digits is rounded to `m`, none of fewer is, and none of as many is nearer. -/
structure Fewest (m : Magnitude) (n : ℕ) (d : Decimal) : Prop where
  coefficient_lt : d.coefficient < 10 ^ n
  takes : m.Takes d.value
  le {k : ℕ} {q : ℚ} : WithDigits k q → m.Takes q → n ≤ k
  nearest {q : ℚ} : WithDigits n q → m.Takes q → |d.value - m.value| ≤ |q - m.value|

/-- What the search finds at a place, if every decimal that is rounded to the magnitude has as many
digits as one of that place. -/
theorem fewest_carry (hf : m.isFinite) (hlow : 10 ^ l ≤ m.value) (hhigh : m.value < 10 ^ (l + 1))
    (hn : n = l - e + 1) (hpos : 0 < n) (hmore : ∀ k q, WithDigits k q → m.Takes q → n ≤ k)
    (h : (Stretch.around m).multiple? e = some c) : Fewest m n (carry c e) := by
  have htakes : m.Takes (carry c e).value := by
    rw [value_carry]
    exact (Stretch.contains_iff hf).1 (Stretch.contains_of_multiple? h)
  obtain ⟨hc, hbelow, habove⟩ := nearer_of_multiple? hf h
  have hlt : below m e < 10 ^ n := below_lt (by rwa [show (n : ℤ) + e = l + 1 by omega])
  refine ⟨?_, htakes, fun {k q} => hmore k q, fun {q} hq ht => ?_⟩
  · by_cases hten : c = 10 ^ n
    -- the next power of ten has one digit, so this is the first place
    · have hone : n ≤ 1 := by
        rw [value_carry, hten, value_ten_pow] at htakes
        exact hmore 1 _ (withDigits_ten_pow _) htakes
      obtain rfl : n = 1 := by omega
      rw [carry, if_pos (show c = 10 from hten)]
      exact Nat.one_lt_pow one_ne_zero (by decide)
    · unfold carry
      split_ifs
      · exact Nat.one_lt_pow hpos.ne' (by decide)
      · show c < 10 ^ n
        omega
  · rw [value_carry]
    rcases takes_of_apart ht (hq.apart hlow (by omega) hn.le) with ⟨ht', hle⟩ | ⟨ht', hle⟩
    · exact (hbelow ht').trans hle
    · exact (habove ht').trans hle

theorem fewest_search (hf : m.isFinite) (hlow : 10 ^ l ≤ m.value) (hhigh : m.value < 10 ^ (l + 1))
    (places : ℕ) (hn : n = l - e + 1) (hpos : 0 < n)
    (hmore : ∀ k q, WithDigits k q → m.Takes q → n ≤ k) (hend : e - places ≤ -1074) :
    ∃ k, Fewest m k (search (.around m) places e) := by
  induction places generalizing n e with
  | zero =>
    have hvalue : (mk (below m e) e).value = m.value := by
      have hlast := value_last m (e := e) (by simpa using hend)
      rw [value_eq, eq_div_iff cast_unitsInOne_pos.ne']
      exact hlast
    refine ⟨n, below_lt (by rwa [show (n : ℤ) + e = l + 1 by omega]), ?_, fun {k q} => hmore k q,
      fun {q} _ _ => ?_⟩
    · show m.Takes (mk (below m e) e).value
      rw [hvalue]
      exact m.takes_value
    · show |(mk (below m e) e).value - m.value| ≤ _
      rw [hvalue, sub_self, abs_zero]
      exact abs_nonneg _
  | succ places ih =>
    rw [search]
    split
    · rename_i c hc
      exact ⟨n, fewest_carry hf hlow hhigh hn hpos hmore hc⟩
    · rename_i hnone
      obtain ⟨hbelow, habove⟩ := not_takes_of_multiple? hf hnone
      refine ih (n := n + 1) (by push_cast; omega) n.succ_pos (fun k q hq ht => ?_)
        (by push_cast at hend; omega)
      by_contra hk
      rcases takes_of_apart (e := e) ht (hq.apart hlow (by omega) (by omega)) with h | h
      · exact hbelow h.1
      · exact habove h.1

end Search

end Decimal

/-- The first digit of a value stands at the leading place. -/
theorem Stretch.leading_spec {s : Stretch} (hv : 0 < s.value) (hs : 0 < s.scale) :
    (10 : ℚ) ^ s.leading ≤ s.value / s.scale ∧
      (s.value / s.scale : ℚ) < 10 ^ (s.leading + 1) := by
  have hpos : (0 : ℚ) < s.scale := by exact_mod_cast hs
  have hten : (10 : ℚ) ≠ 0 := by norm_num
  unfold leading
  rw [le_div_iff₀ hpos, div_lt_iff₀ hpos]
  by_cases hle : s.scale ≤ s.value
  · have hne : s.value / s.scale ≠ 0 := (Nat.div_pos hle hs).ne'
    have hlow := Digits.powTen_count_le hne
    have hhigh := Digits.lt_powTen_count (s.value / s.scale)
    have hfloor := Nat.div_mul_le_self s.value s.scale
    rw [Nat.div_lt_iff_lt_mul hs] at hhigh
    generalize Digits.count (s.value / s.scale) = k at hlow hhigh ⊢
    have hlow' : powTen k * s.scale ≤ 10 * s.value := by nlinarith
    rw [if_pos hle, sub_add_cancel, zpow_sub_one₀ hten, zpow_natCast, ← cast_powTen]
    constructor
    · have : (powTen k * s.scale : ℚ) ≤ 10 * s.value := by exact_mod_cast hlow'
      linarith
    · exact_mod_cast hhigh
  · have hne : (s.scale - 1) / s.value ≠ 0 := (Nat.div_pos (by omega) hv).ne'
    have hlow := Digits.powTen_count_le hne
    have hhigh := Digits.lt_powTen_count ((s.scale - 1) / s.value)
    have hfloor := Nat.div_mul_le_self (s.scale - 1) s.value
    rw [Nat.div_lt_iff_lt_mul hv] at hhigh
    generalize Digits.count ((s.scale - 1) / s.value) = k at hlow hhigh ⊢
    have hpow : (0 : ℚ) < powTen k := by exact_mod_cast powTen_pos k
    have hlow' : powTen k * s.value < 10 * s.scale := by
      calc powTen k * s.value ≤ 10 * ((s.scale - 1) / s.value) * s.value :=
            Nat.mul_le_mul_right _ hlow
        _ = 10 * ((s.scale - 1) / s.value * s.value) := Nat.mul_assoc _ _ _
        _ < 10 * s.scale := by omega
    have hhigh' : s.scale ≤ powTen k * s.value := by omega
    rw [if_neg hle, zpow_add_one₀ hten, zpow_neg, zpow_natCast, ← cast_powTen, ← div_eq_inv_mul,
      div_le_iff₀ hpow, inv_mul_eq_div, div_mul_eq_mul_div, lt_div_iff₀ hpow]
    constructor
    · rw [mul_comm]
      exact_mod_cast hhigh'
    · rw [mul_comm]
      exact_mod_cast hlow'

theorem Decimal.fewest_shortest {m : Magnitude} (hf : m.isFinite) (hm : 0 < m.value) :
    ∃ n, Fewest m n (shortest m) := by
  have hunits : 0 < m.units := by
    rw [Magnitude.value_eq] at hm
    exact_mod_cast (div_pos_iff_of_pos_right cast_unitsInOne_pos).1 hm
  have hvalue : m.value = (Stretch.around m).value / (Stretch.around m).scale := by
    rw [Magnitude.value_eq]
    show _ = ((2 * m.units : ℕ) : ℚ) / ((2 * unitsInOne : ℕ) : ℚ)
    rw [Nat.cast_mul, Nat.cast_mul, mul_div_mul_left _ _ (by norm_num)]
  obtain ⟨hlow, hhigh⟩ := Stretch.leading_spec (s := .around m)
    (Nat.mul_pos Nat.two_pos hunits) (Nat.mul_pos Nat.two_pos (powTwo_pos 1074))
  rw [← hvalue] at hlow hhigh
  refine fewest_search (n := 1) hf hlow hhigh _ (by simp) Nat.one_pos (fun k q hq ht => ?_)
    (by omega)
  by_contra hk
  obtain rfl : k = 0 := by omega
  have hzero := withDigits_zero_iff.1 hq
  exact absurd (ht.pos hm hzero.ge) (by rw [hzero]; exact lt_irrefl 0)

namespace Number

open Numeral

variable {m : Magnitude} {sign body : List Char} {negative : Bool} {q : ℚ}

/-- What is read as a number is rounded to its magnitude. -/
theorem takes_of_ofText? {negative' : Bool} (hs : Sign sign negative') (hw : Writes body q)
    (h : ofText? (sign ++ body) = some (signed negative m)) : m.Takes q := by
  obtain ⟨d, hd, rfl⟩ := Numeral.ofText?_of_writes hw
  rw [ofText?_append_eq_some hs hd] at h
  obtain rfl : d.nearest = m := by
    simp only [toNumber, Option.some.injEq, signed.injEq] at h
    exact h.2
  exact d.rounds_nearest

theorem toList_text (negative : Bool) (m : Magnitude) :
    (signed negative m).text.toList = (if negative then ['-'] else []) ++ m.text := by
  cases negative
  · rw [text_positive, String.toList_ofList]
    rfl
  · rw [text_negative, String.toList_ofList]
    rfl

/-- The text of a whole number is its sign, all its digits and `.0`. That of any other finite number
is read as the number, no decimal of fewer digits is, whatever exponent it has, and of those of as
many digits that are none is nearer. -/
theorem text_exact_or_shortest (hf : m.isFinite) (negative : Bool) :
    let v := signed negative m
    let sign := if negative then ['-'] else []
    (∀ n : ℕ, m.value = n → v.text.toList = sign ++ (Nat.toDigits 10 n ++ ['.', '0'])) ∧
      ((∀ n : ℕ, m.value ≠ n) → ∃ whole part q,
        v.text.toList = sign ++ (whole ++ '.' :: part) ∧ Tile.IsDigits whole ∧
          Tile.IsDigits part ∧ Writes (whole ++ '.' :: part) q ∧ ofText? v.text.toList = some v ∧
          ∀ sign' negative' body q' n, Sign sign' negative' → Writes body q' →
            Decimal.WithDigits n q' → ofText? (sign' ++ body) = some v →
              Digits.significant (whole ++ part) ≤ n ∧
                (n = Digits.significant (whole ++ part) → |q - m.value| ≤ |q' - m.value|)) := by
  intro v sign
  have hfinite : ¬ (!m.isFinite) = true := by
    rw [hf]
    exact Bool.false_ne_true
  refine ⟨fun n hn => ?_, fun hne => ?_⟩
  · have hunits : m.units = n * unitsInOne := by
      rw [Magnitude.value_eq, div_eq_iff cast_unitsInOne_pos.ne'] at hn
      exact_mod_cast hn
    rw [toList_text, Magnitude.text, if_neg hfinite, if_pos (Magnitude.isWhole_iff.2 ⟨n, hn⟩),
      hunits, Nat.mul_div_cancel _ (powTwo_pos 1074), Digits.natText_eq]
    rfl
  · have hw : ¬ m.isWhole := fun hw => by
      obtain ⟨n, hn⟩ := Magnitude.isWhole_iff.1 hw
      exact hne n hn
    have hpos : 0 < m.value := by
      refine lt_of_le_of_ne ?_ fun h => hne 0 (by rw [← h, Nat.cast_zero])
      rw [Magnitude.value_eq]
      exact div_nonneg (Nat.cast_nonneg _) cast_unitsInOne_pos.le
    obtain ⟨whole, part, hwhole, hpart, htext, hd⟩ := Magnitude.exists_point_shortest hf hw
    obtain ⟨k, hfewest⟩ := Decimal.fewest_shortest hf hpos
    rw [← hd] at hfewest
    have hdigits : ∀ c ∈ whole ++ part, c.isDigit :=
      List.forall_mem_append.2 ⟨hwhole.2, hpart.2⟩
    have hle : Digits.significant (whole ++ part) ≤ k :=
      Digits.significant_le hdigits hfewest.coefficient_lt
    refine ⟨whole, part, _, ?_, hwhole, hpart, writes_point hwhole hpart, ofText?_text rfl,
      fun sign' negative' body q' n hs hb hq hread => ?_⟩
    · rw [toList_text, Magnitude.text, if_neg hfinite, if_neg hw, htext]
    · have htakes := takes_of_ofText? hs hb hread
      have hkn := hfewest.le hq htakes
      refine ⟨hle.trans hkn, fun hn => ?_⟩
      obtain rfl : n = k := by omega
      exact hfewest.nearest hq htakes

/-- Below a power of two the magnitudes are closer together than above it: of the decimals of 16
digits the nearest to `2 ^ -44` is rounded to the magnitude before, and the next one is printed. -/
theorem text_exact_or_shortest_powTwo :
    let m : Magnitude := ⟨979 * binadeSize, by decide⟩
    let v := signed true m
    m.isFinite ∧ (∀ n : ℕ, m.value ≠ n) ∧ v.text = "-0.00000000000005684341886080802" ∧
      ofText? "-5.684341886080801e-14".toList ≠ some v ∧
      ∀ body q n, Writes body q → Decimal.WithDigits n q → ofText? ('-' :: body) = some v →
        16 ≤ n := by
  intro m v
  have hf : m.isFinite := by decide
  have hne : ∀ n : ℕ, m.value ≠ n := fun n hn => by
    have hwhole : m.isWhole := Magnitude.isWhole_iff.2 ⟨n, hn⟩
    have hno : ¬ m.isWhole := by decide +kernel
    exact hno hwhole
  have htext : v.text = "-0.00000000000005684341886080802" := by decide +kernel
  refine ⟨hf, hne, htext, by decide +kernel, fun body q n hb hq hread => ?_⟩
  obtain ⟨whole, part, _, hwritten, hwhole, hpart, -, -, hfewest⟩ :=
    (text_exact_or_shortest hf true).2 hne
  have hdigits : whole ++ part = v.text.toList.filter Char.isDigit := by
    rw [hwritten]
    simp [List.filter_eq_self.2 hwhole.2, List.filter_eq_self.2 hpart.2]
  have hcount : Digits.significant (whole ++ part) = 16 := by
    rw [hdigits, htext]
    decide
  have hle := (hfewest ['-'] true body q n .minus hb hq hread).1
  rwa [hcount] at hle

end Number

end Lox
