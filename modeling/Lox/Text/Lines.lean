/-!
# Lines of bytes

`lines` cuts bytes after every newline; the last line may lack one. `chomp` drops a line's
newline, and one carriage return before it.
-/

namespace Lox.Text

abbrev newline : UInt8 := 10

abbrev carriageReturn : UInt8 := 13

/-- The bytes up to the first newline, which is among them, and the bytes after it. -/
def nextLine : List UInt8 → List UInt8 × List UInt8
  | [] => ([], [])
  | b :: bytes =>
    if b = newline then ([b], bytes)
    else
      let (line, rest) := nextLine bytes
      (b :: line, rest)

theorem nextLine_append (bytes : List UInt8) :
    (nextLine bytes).1 ++ (nextLine bytes).2 = bytes := by
  fun_induction nextLine bytes <;> simp_all

theorem length_nextLine_le (bytes : List UInt8) : (nextLine bytes).2.length ≤ bytes.length := by
  have := congrArg List.length (nextLine_append bytes)
  simp only [List.length_append] at this
  omega

theorem length_nextLine_lt (b : UInt8) (bytes : List UInt8) :
    (nextLine (b :: bytes)).2.length < (b :: bytes).length := by
  have := length_nextLine_le bytes
  simp only [nextLine]
  split
  · simp
  · simpa using Nat.lt_succ_of_le this

def lines : List UInt8 → List (List UInt8)
  | [] => []
  | b :: bytes => (nextLine (b :: bytes)).1 :: lines (nextLine (b :: bytes)).2
termination_by bytes => bytes.length
decreasing_by exact length_nextLine_lt b bytes

def chomp (line : List UInt8) : List UInt8 :=
  match line.reverse with
  | 10 :: 13 :: before => before.reverse
  | 10 :: before => before.reverse
  | _ => line

end Lox.Text
