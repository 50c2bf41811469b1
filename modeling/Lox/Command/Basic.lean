import Lox.Command.Repl

/-!
# Commands

What each command leaves behind on its streams and as its exit code.
-/

namespace Lox

inductive Command where
  | tokenize (input : Input)
  | parse (input : Input)
  | repl

namespace Command

/-- Runs a command where `files` says what a path holds and `stdin` is on standard input. -/
def run (files : String → Except ReadError ByteArray) (stdin : List UInt8) : Command → Output
  | tokenize input => input.run files Batch.tokenize
  | parse input => input.run files Batch.parse
  | repl => Repl.run stdin

end Command

end Lox
