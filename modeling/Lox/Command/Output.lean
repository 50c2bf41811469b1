/-!
# What a command leaves behind

The texts a command writes on its two streams and the code it exits with, and why a read failed.
-/

namespace Lox

structure Output where
  code : UInt32
  stdout : String
  stderr : String

namespace ExitCode

abbrev success : UInt32 := 0

/-- The source was rejected. -/
abbrev dataError : UInt32 := 65

/-- The input could not be read. -/
abbrev noInput : UInt32 := 66

end ExitCode

inductive ReadError where
  /-- The system refused, with a message and a number. -/
  | system (message : String) (number : Nat)
  /-- The bytes are not UTF-8. -/
  | invalidText

namespace ReadError

def text : ReadError → String
  | system message number => message ++ " (os error " ++ toString number ++ ")"
  | invalidText => "stream did not contain valid UTF-8"

end ReadError

/-- The text that bytes encode. -/
def decodeText (bytes : ByteArray) : Except ReadError String :=
  match String.fromUTF8? bytes with
  | some text => .ok text
  | none => .error .invalidText

end Lox
