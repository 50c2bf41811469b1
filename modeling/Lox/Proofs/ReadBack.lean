import Lox.Number.Text
import Lox.Proofs.Numerals
import Lox.Proofs.Spacing

/-!
# Numbers that are read back

The search for the shortest decimal of a magnitude stops at one that is rounded to the magnitude,
since a multiple of a place lies in the stretch around a magnitude exactly if it is rounded to it
(`Stretch.contains_iff`). The decimal of a magnitude that is no whole number has places behind the
dot: a whole number is rounded to a whole number (`Magnitude.isWhole_of_rounds`).

So the text of a finite number without sign is digits, a dot and digits, and what it is read as is
the number itself, by the reader and by a scan (`Number.scan_text`).
-/

namespace Lox

section Search

open Magnitude

variable {m : Magnitude} {c : Nat} {e : Int}

theorem powTwo_dvd {j k : Nat} (h : j ≤ k) : powTwo j ∣ powTwo k := Nat.pow_dvd_pow 2 h

theorem powTwo_dvd_powTen {j k : Nat} (h : j ≤ k) : powTwo j ∣ powTen k :=
  (powTwo_dvd h).trans (pow_dvd_pow_of_dvd (by decide) k)

/-- Twice the value in units, as the numerators of the search have it. -/
theorem Decimal.two_mul_value (c : Nat) (e : Int) :
    2 * ((Decimal.mk c e).value * unitsInOne) =
      (c * (2 * unitsInOne * powTen e.toNat) : ℕ) / (powTen (-e).toNat : ℕ) := by
  have hpow : (10 : ℚ) ^ e = 10 ^ e.toNat / 10 ^ (-e).toNat := by
    rw [← zpow_natCast, ← zpow_natCast, ← zpow_sub₀ (by norm_num), Int.toNat_sub_toNat_neg]
  rw [Decimal.value, hpow, Nat.cast_mul, Nat.cast_mul, Nat.cast_mul, cast_powTen, cast_powTen]
  ring

theorem Stretch.contains_eq_true {s : Stretch} {x : Nat} : s.contains x ↔
    if s.closed then s.low ≤ x ∧ x ≤ s.high else s.low < x ∧ x < s.high := by
  unfold contains
  split_ifs <;> rw [Bool.and_eq_true, decide_eq_true_eq, decide_eq_true_eq]

/-- The multiples of a place in the stretch around a finite magnitude are rounded to it. -/
theorem Stretch.contains_iff (hf : m.isFinite) :
    ((around m).refine e).contains (c * (around m).step e) ↔
      Rounds ((Decimal.mk c e).value * unitsInOne) m := by
  have hpos : (0 : ℚ) < (powTen (-e).toNat : ℕ) := by exact_mod_cast powTen_pos _
  have htwice := Decimal.two_mul_value c e
  rw [Rounds, not_reaches_succ_iff, Reaches, htwice, imp_iff_right hf]
  rw [lt_div_iff₀ hpos, div_lt_iff₀ hpos, eq_div_iff hpos.ne', div_eq_iff hpos.ne']
  rw [contains_eq_true]
  simp only [refine, step, around, beq_iff_eq]
  norm_cast
  split_ifs with heven
  · simp only [heven, and_true]
    omega
  · simp only [heven, and_false, or_false]

theorem Stretch.contains_of_multiple? {s : Stretch} (h : s.multiple? e = some c) :
    (s.refine e).contains (c * s.step e) := by
  simp only [multiple?] at h
  split at h
  · rename_i hbelow habove
    cases h
    split_ifs
    · exact hbelow
    · exact habove
  · cases h
    assumption
  · cases h
    assumption
  · cases h

theorem Decimal.value_carry (c : Nat) (e : Int) : (carry c e).value = (Decimal.mk c e).value := by
  unfold carry
  split_ifs with hc
  · rw [value, value, hc, zpow_add_one₀ (by norm_num), mul_comm ((10 : ℚ) ^ e)]
    push_cast
    ring
  · rfl

/-- Far enough behind the dot every magnitude is a multiple of a place. -/
theorem Decimal.value_last (m : Magnitude) (he : e ≤ -1074) :
    (Decimal.mk (((Stretch.around m).refine e).value / (Stretch.around m).step e) e).value *
      unitsInOne = m.units := by
  have hpos : ((powTen (-e).toNat : ℕ) : ℚ) ≠ 0 := by exact_mod_cast (powTen_pos _).ne'
  have hstep : (Stretch.around m).step e = 2 * unitsInOne := by
    rw [Stretch.step, Int.toNat_of_nonpos (show e ≤ 0 by omega), show powTen 0 = 1 from rfl,
      Nat.mul_one]
    rfl
  have hdvd : (Stretch.around m).step e ∣ ((Stretch.around m).refine e).value := by
    rw [hstep]
    exact Nat.mul_dvd_mul (Nat.dvd_mul_right 2 _) (powTwo_dvd_powTen (by omega))
  have htwice := two_mul_value (((Stretch.around m).refine e).value / (Stretch.around m).step e) e
  rw [show 2 * unitsInOne * powTen e.toNat = (Stretch.around m).step e from rfl,
    Nat.div_mul_cancel hdvd, eq_div_iff hpos] at htwice
  have hvalue : ((Stretch.around m).refine e).value = 2 * m.units * powTen (-e).toNat := rfl
  rw [hvalue, Nat.cast_mul, mul_left_inj' hpos, Nat.cast_mul, Nat.cast_two] at htwice
  rw [hvalue]
  linarith

/-- The search stops at a multiple that is rounded to the magnitude, at the last place at the
latest. -/
theorem Decimal.rounds_search (hf : m.isFinite) (places : Nat) (he : e - places ≤ -1074) :
    Rounds ((search (.around m) places e).value * unitsInOne) m := by
  induction places generalizing e with
  | zero =>
    rw [search, Decimal.value_last m (by simpa using he)]
    exact rounds_units m
  | succ places ih =>
    rw [search]
    split
    · rename_i c hc
      rw [Decimal.value_carry]
      exact (Stretch.contains_iff hf).1 (Stretch.contains_of_multiple? hc)
    · exact ih (by push_cast at he; omega)

theorem Decimal.rounds_shortest (hf : m.isFinite) :
    Rounds ((shortest m).value * unitsInOne) m :=
  rounds_search hf _ (by omega)

end Search

namespace Magnitude

variable {m : Magnitude} {n : Nat}

theorem unitsAt_le_add (rank : Nat) :
    unitsAt rank ≤ unitsAt (rank - 1) + powTwo (rank / binadeSize - 1) := by
  rcases rank with _ | rank
  · rw [unitsAt_zero]
    exact Nat.zero_le _
  · have hspacing : powTwo (rank / binadeSize - 1) ≤ powTwo ((rank + 1) / binadeSize - 1) := by
      refine powTwo_le (Nat.sub_le_sub_right (Nat.div_le_div_right (Nat.le_succ rank)) 1)
    rw [unitsAt_succ, Nat.add_sub_cancel]
    omega

/-- A whole number is rounded to a whole number. -/
theorem isWhole_of_rounds (hf : m.isFinite) (h : Rounds (n * unitsInOne) m) : m.isWhole := by
  have hlow : unitsAt (m.rank - 1) + unitsAt m.rank ≤ 2 * (n * unitsInOne) := by
    exact_mod_cast h.1.le
  have hhigh : 2 * (n * unitsInOne) ≤ unitsAt m.rank + unitsAt (m.rank + 1) := by
    exact_mod_cast le_of_not_reaches_succ (h.2 hf)
  have hbefore := unitsAt_le_add m.rank
  obtain ⟨s, hr, hs, hk⟩ := exists_significand m.rank
  have hat : unitsAt m.rank = s * powTwo (m.rank / binadeSize - 1) := by
    conv_lhs => rw [hr]
    exact unitsAt_mul_add hs hk
  rw [unitsAt_succ] at hhigh
  rw [hat] at hlow hhigh hbefore
  refine beq_iff_eq.2 (Nat.mod_eq_zero_of_dvd ?_)
  rw [units, hat]
  generalize m.rank / binadeSize - 1 = k at hlow hhigh hbefore ⊢
  rcases Nat.le_total 1074 k with hle | hle
  · exact Nat.dvd_mul_left_of_dvd (powTwo_dvd hle) s
  -- below `2 ^ 53` a whole number is a whole number of spacings
  · have hunits : powTwo (1074 - k) * powTwo k = unitsInOne := by
      rw [← powTwo_add, Nat.sub_add_cancel hle]
    rw [← hunits, ← Nat.mul_assoc] at hlow hhigh
    rw [← hunits]
    have hpos := powTwo_pos k
    have hle' : 2 * s ≤ 2 * (n * powTwo (1074 - k)) + 1 :=
      Nat.le_of_mul_le_mul_right (by linarith) hpos
    have hge : 2 * (n * powTwo (1074 - k)) ≤ 2 * s + 1 :=
      Nat.le_of_mul_le_mul_right (by linarith) hpos
    obtain rfl : s = n * powTwo (1074 - k) := by omega
    rw [Nat.mul_assoc]
    exact Nat.dvd_mul_left _ n

/-- Digits, a dot and digits that write what is rounded to `m`. -/
def IsPoint (text : List Char) (m : Magnitude) : Prop :=
  ∃ whole part, Tile.IsDigits whole ∧ Tile.IsDigits part ∧ text = whole ++ '.' :: part ∧
    Rounds ((Decimal.mk (Digits.ofDigits (whole ++ part)) (-part.length)).value * unitsInOne) m

theorem isPoint_natText (h : n * unitsInOne = m.units) :
    IsPoint (Digits.natText n ++ ".0".toList) m := by
  have hdigits : Digits.ofDigits (Digits.natText n ++ ['0']) = 10 * n := by
    rw [Digits.ofDigits_concat, Digits.ofDigits_natText]
    rfl
  have hvalue : (Decimal.mk (10 * n) (-1)).value = n := by
    rw [Decimal.value, zpow_neg_one]
    push_cast
    field_simp
  refine ⟨_, ['0'], Digits.isDigits_natText n, ⟨by simp, by simp⟩, rfl, ?_⟩
  rw [hdigits, List.length_singleton, Nat.cast_one, hvalue, ← Nat.cast_mul, h]
  exact rounds_units m

/-- The shortest decimal of a magnitude that is no whole number is written with a dot. -/
theorem exists_point_shortest (hf : m.isFinite) (hw : ¬ m.isWhole) : ∃ whole part,
    Tile.IsDigits whole ∧ Tile.IsDigits part ∧
      (Decimal.shortest m).text = whole ++ '.' :: part ∧
      Decimal.mk (Digits.ofDigits (whole ++ part)) (-part.length) = Decimal.shortest m := by
  have hrounds := Decimal.rounds_shortest hf
  generalize Decimal.shortest m = d at hrounds ⊢
  obtain ⟨c, e | e⟩ := d
  · have hvalue : (Decimal.mk c (.ofNat e)).value = (c * powTen e : ℕ) := by
      rw [Decimal.value, Nat.cast_mul, cast_powTen]
      rfl
    rw [hvalue] at hrounds
    exact absurd (isWhole_of_rounds hf hrounds) hw
  · have hlength := Digits.length_lastDigits (e + 1) c
    have hne : Digits.lastDigits (e + 1) c [] ≠ [] :=
      List.ne_nil_of_length_pos (by rw [hlength]; exact Nat.succ_pos e)
    refine ⟨_, _, Digits.isDigits_natText _, ⟨hne, Digits.isDigit_of_mem_lastDigits⟩, rfl, ?_⟩
    rw [Digits.ofDigits_append, Digits.ofDigits_natText, Digits.ofDigits_lastDigits, hlength,
      Nat.div_add_mod']
    rfl

theorem isPoint_shortest (hf : m.isFinite) (hw : ¬ m.isWhole) :
    IsPoint (Decimal.shortest m).text m := by
  obtain ⟨whole, part, hwhole, hpart, htext, hd⟩ := exists_point_shortest hf hw
  refine ⟨whole, part, hwhole, hpart, htext, ?_⟩
  rw [hd]
  exact Decimal.rounds_shortest hf

/-- The text of a finite magnitude has no exponent. -/
theorem isPoint_text (hf : m.isFinite) : IsPoint m.text m := by
  have hfinite : ¬ (!m.isFinite) = true := by
    rw [hf]
    exact Bool.false_ne_true
  rw [text, if_neg hfinite]
  split_ifs with hw
  · exact isPoint_natText (Nat.div_mul_cancel (Nat.dvd_of_mod_eq_zero (beq_iff_eq.1 hw)))
  · exact isPoint_shortest hf hw

end Magnitude

namespace Number

open Numeral

theorem toBits_ofBits {bits : UInt64} (h : !(ofBits bits).isNaN) : (ofBits bits).toBits = bits := by
  have hlt := bits.toNat_lt
  unfold ofBits at h ⊢
  simp only [] at h ⊢
  split_ifs at h ⊢ with hr
  · refine UInt64.toNat_inj.1 ?_
    rw [toBits, UInt64.toNat_ofNat']
    simp only [signWeight, decide_eq_true_eq]
    split_ifs <;> omega
  · cases h

theorem text_positive (m : Magnitude) : (signed false m).text = String.ofList m.text := by
  rw [text, if_neg Bool.false_ne_true]

theorem text_negative (m : Magnitude) : (signed true m).text = String.ofList ('-' :: m.text) := by
  rw [text, if_pos rfl]

theorem exists_sign (negative : Bool) (m : Magnitude) :
    ∃ sign, Sign sign negative ∧ (signed negative m).text.toList = sign ++ m.text := by
  cases negative
  · exact ⟨[], .none, by rw [text_positive, String.toList_ofList, List.nil_append]⟩
  · exact ⟨['-'], .minus, by rw [text_negative, String.toList_ofList, List.singleton_append]⟩

/-- A number is what its text is read as. -/
theorem ofText?_text {v : Number} (hv : !v.isNaN) : ofText? v.text.toList = some v := by
  rcases v with _ | ⟨negative, m⟩
  · cases hv
  by_cases hf : m.isFinite
  · obtain ⟨whole, part, hw, hp, htext, hrounds⟩ := Magnitude.isPoint_text hf
    obtain ⟨sign, hs, hsign⟩ := exists_sign negative m
    obtain ⟨m', hread, hnear⟩ := ofText?_of_writes hs (writes_point hw hp)
    rw [hsign, htext, hread, (hnear m).1 hrounds.nearest]
  · obtain rfl := Magnitude.eq_infinity hf
    cases negative <;> decide

end Number

namespace Scan

open Tile

variable {text : List Char} {n : Number}

theorem count_number (h : IsNumber text) : text.count '\n' = 0 :=
  List.count_eq_zero.2 (newline_notMem h.not_isSpace)

theorem onward_number (h : IsNumber text) (hn : Number.ofText? text = some n) (line : Nat) :
    onward line text = ⟨[⟨.number, String.ofList text, some (.number n), line⟩], []⟩ := by
  have hs : (number text).Stands [] := .inl (IsLexeme.fits h (by simp))
  have hon : onward line (text ++ []) = _ := onward_of_stands hs
  rw [List.append_nil, onward_nil, token?, hn] at hon
  exact hon

/-- There is no longer mark that begins with a minus. -/
theorem onward_minus (text : List Char) (line : Nat) :
    onward line ('-' :: text) = ⟨⟨.mark .minus, "-", none, line⟩ :: (onward line text).tokens,
      (onward line text).diagnostics⟩ := by
  have hs : (mark .minus).Stands text := by
    refine .inl ⟨.inr ⟨_, rfl⟩, fun more hne _ hsign => ?_⟩
    obtain ⟨c, cs, rfl⟩ := List.exists_cons_of_ne_nil hne
    rcases hsign with hsign | ⟨m, hm⟩
    · cases hsign
    · cases m <;> cases hm
  exact onward_of_stands hs

end Scan

namespace Number

/-- The text of a finite number is digits, a dot and digits, with a minus before them if the number
has the sign, and scans to one number and nothing else but this minus; and every number is what its
text is read as, bit for bit. -/
theorem scan_text :
    (∀ m : Magnitude, m.isFinite →
      (∃ whole part, Tile.IsDigits whole ∧ Tile.IsDigits part ∧
        (signed false m).text.toList = whole ++ '.' :: part) ∧
      Scan.ofSource (signed false m).text =
        ⟨[⟨.number, (signed false m).text, some (.number (signed false m)), 1⟩, Token.eof 1], []⟩ ∧
      Scan.ofSource (signed true m).text =
        ⟨[⟨.mark .minus, "-", none, 1⟩,
          ⟨.number, (signed false m).text, some (.number (signed false m)), 1⟩, Token.eof 1],
          []⟩) ∧
    ∀ bits : UInt64, !(ofBits bits).isNaN →
      ∃ v, ofText? (ofBits bits).text.toList = some v ∧ v.toBits = bits := by
  refine ⟨fun m hf => ?_, fun bits hb => ⟨_, ofText?_text hb, toBits_ofBits hb⟩⟩
  obtain ⟨whole, part, hw, hp, htext, -⟩ := Magnitude.isPoint_text hf
  have hnumber : Tile.IsNumber m.text := ⟨whole, hw, .inr ⟨part, hp, htext⟩⟩
  have hread : ofText? m.text = some (signed false m) := by
    rw [← String.toList_ofList (l := m.text), ← text_positive]
    exact ofText?_text rfl
  simp only [text_positive, text_negative, Scan.ofSource, String.toList_ofList,
    Scan.ofText_eq_onward]
  refine ⟨⟨whole, part, hw, hp, htext⟩, ?_, ?_⟩
  · rw [Scan.onward_number hnumber hread, Scan.count_number hnumber]
    rfl
  · rw [Scan.onward_minus, Scan.onward_number hnumber hread, List.count_cons_of_ne (by decide),
      Scan.count_number hnumber]
    rfl

end Number

end Lox
