import Lox.Token.Basic

/-!
# Levels of precedence

The binary operators, in four levels from the loosest to the tightest, and the two prefix
operators.
-/

namespace Lox

inductive Level where
  | equality
  | comparison
  | term
  | factor
deriving DecidableEq

namespace Mark

/-- The level of a binary operator. -/
def level? : Mark → Option Level
  | bangEqual | equalEqual => some .equality
  | greater | greaterEqual | less | lessEqual => some .comparison
  | minus | plus => some .term
  | slash | star => some .factor
  | _ => none

end Mark

namespace Kind

def level? : Kind → Option Level
  | mark m => m.level?
  | _ => none

def isBinaryOperator (k : Kind) : Bool := k.level?.isSome

def isPrefixOperator : Kind → Bool
  | mark .bang | mark .minus => true
  | _ => false

theorem exists_mark {k : Kind} (h : k.isPrefixOperator ∨ k.level?.isSome) : ∃ m, k = mark m := by
  cases k with
  | mark m => exact ⟨m, rfl⟩
  | _ => rcases h with h | h <;> cases h

end Kind

end Lox
