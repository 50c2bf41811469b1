import Lox.Number.Digits
import Lox.Number.Power
import Lox.Proofs.Tiling
import Mathlib.Data.List.Induction
import Mathlib.Data.Nat.Digits.Defs
import Mathlib.Tactic.Ring

/-!
# Digits and what they write

Digits stand for the sum of their values, each ten times as much one place further to the left
(`Digits.ofDigits_eq`), and a number is read back from the digits that are written for it
(`Digits.ofDigits_natText`).
-/

namespace Lox.Digits

section Reading

theorem ofDigits_concat (digits : List Char) (c : Char) :
    ofDigits (digits ++ [c]) = 10 * ofDigits digits + value c := by
  simp [ofDigits, List.foldl_append]

theorem ofDigits_append (as bs : List Char) :
    ofDigits (as ++ bs) = ofDigits as * powTen bs.length + ofDigits bs := by
  induction bs using List.reverseRecOn with
  | nil => simp [powTen, ofDigits]
  | append_singleton bs c ih =>
    rw [← List.append_assoc, ofDigits_concat, ofDigits_concat, ih, List.length_append]
    simp only [List.length_singleton, powTen, Nat.pow_eq, Nat.pow_succ]
    ring

theorem ofDigits_eq (digits : List Char) :
    ofDigits digits = Nat.ofDigits 10 (digits.reverse.map value) := by
  induction digits using List.reverseRecOn with
  | nil => rfl
  | append_singleton digits c ih =>
    rw [ofDigits_concat, ih, List.reverse_concat, List.map_cons, Nat.ofDigits_cons]
    exact Nat.add_comm _ _

end Reading

section Writing

theorem digitChar_spec : ∀ d < 10, (Nat.digitChar d).isDigit ∧ value (Nat.digitChar d) = d := by
  decide

theorem lastDigits_append (width n : Nat) (tail : List Char) :
    lastDigits width n tail = lastDigits width n [] ++ tail := by
  induction width generalizing n tail with
  | zero => rfl
  | succ width ih =>
    rw [lastDigits, lastDigits, ih, ih _ [_], List.append_assoc, List.singleton_append]

theorem lastDigits_succ (width n : Nat) :
    lastDigits (width + 1) n [] = lastDigits width (n / 10) [] ++ [Nat.digitChar (n % 10)] :=
  lastDigits_append width (n / 10) [_]

theorem length_lastDigits (width n : Nat) : (lastDigits width n []).length = width := by
  induction width generalizing n with
  | zero => rfl
  | succ width ih => rw [lastDigits_succ, List.length_append, ih, List.length_singleton]

theorem isDigit_of_mem_lastDigits {width n : Nat} :
    ∀ c ∈ lastDigits width n [], c.isDigit := by
  induction width generalizing n with
  | zero => exact nofun
  | succ width ih =>
    rw [lastDigits_succ]
    refine List.forall_mem_append.2 ⟨ih, List.forall_mem_singleton.2 ?_⟩
    exact (digitChar_spec _ (Nat.mod_lt _ (by decide))).1

theorem ofDigits_lastDigits (width n : Nat) :
    ofDigits (lastDigits width n []) = n % powTen width := by
  induction width generalizing n with
  | zero => exact (Nat.mod_one n).symm
  | succ width ih =>
    rw [lastDigits_succ, ofDigits_concat, ih, (digitChar_spec _ (Nat.mod_lt _ (by decide))).2]
    simp only [powTen, Nat.pow_eq, Nat.pow_succ']
    rw [Nat.mod_mul, Nat.add_comm]

theorem lt_powTen_count (n : Nat) : n < powTen (count n) := by
  fun_induction count n with
  | case1 => decide
  | case2 n _ ih =>
    simp only [powTen, Nat.pow_eq, Nat.pow_succ] at ih ⊢
    omega

theorem isDigits_natText (n : Nat) : Tile.IsDigits (natText n) := by
  refine ⟨List.ne_nil_of_length_pos ?_, isDigit_of_mem_lastDigits⟩
  rw [natText, length_lastDigits]
  omega

theorem ofDigits_natText (n : Nat) : ofDigits (natText n) = n := by
  have hle : powTen (count n) ≤ powTen (max 1 (count n)) :=
    Nat.pow_le_pow_right (by decide) (Nat.le_max_right _ _)
  rw [natText, ofDigits_lastDigits]
  exact Nat.mod_eq_of_lt (Nat.lt_of_lt_of_le (lt_powTen_count n) hle)

end Writing

end Lox.Digits
