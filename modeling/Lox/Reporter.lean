import Lox.Diagnostic

/-!
# The reporter

The sink of the command line: it writes each diagnostic on a line of its own and counts them.
-/

namespace Lox

structure Reporter where
  errorCount : Nat
  written : String

namespace Reporter

def fresh : Reporter := ⟨0, ""⟩

def hadError (r : Reporter) : Bool := 0 < r.errorCount

/-- Forgets the errors so far; what is written stays. -/
def reset (r : Reporter) : Reporter := { r with errorCount := 0 }

instance : Sink Reporter where
  report r d := ⟨r.errorCount + 1, r.written ++ d.text ++ "\n"⟩

end Reporter

end Lox
