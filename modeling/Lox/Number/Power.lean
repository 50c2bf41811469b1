/-!
# Powers of two and of ten
-/

namespace Lox

def powTwo (k : Nat) : Nat := Nat.pow 2 k

def powTen (k : Nat) : Nat := Nat.pow 10 k

theorem powTwo_pos (k : Nat) : 0 < powTwo k := Nat.pow_pos (by decide)

theorem powTen_pos (k : Nat) : 0 < powTen k := Nat.pow_pos (by decide)

end Lox
