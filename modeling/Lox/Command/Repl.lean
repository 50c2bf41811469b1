import Lox.Command.Batch
import Lox.Text.Blank
import Lox.Text.Lines

/-!
# The loop

`Repl.run` reads standard input line by line. For every line it writes a prompt and then, unless the
line is blank, the line's tree or its diagnostics. It stops at the end of input, or with an error
at the first line that is no text.
-/

namespace Lox

namespace Repl

def prompt : String := "> "

/-- What the loop writes for a line, before the next prompt. -/
def answer (reporter : Reporter) (line : String) : String × Reporter :=
  if Text.isBlank line then ("", reporter)
  else
    let (result, reporter) := parseSource line reporter
    (Batch.treeLine result, reporter.reset)

/-- One turn of the loop: what it writes on standard output, the reporter after it, and the code
to exit with if it is the last. -/
structure Turn where
  stdout : String
  reporter : Reporter
  exit : Option UInt32

/-- The turn for the next line, `none` at the end of input. -/
def turn (reporter : Reporter) : Option (List UInt8) → Turn
  | none => ⟨"\n", reporter, some ExitCode.success⟩
  | some line =>
    match decodeText ⟨(Text.chomp line).toArray⟩ with
    | .ok text =>
      let (stdout, reporter) := answer reporter text
      ⟨stdout, reporter, none⟩
    | .error e =>
      let message := "Failed to read from standard input: " ++ e.text ++ "\n"
      ⟨"", { reporter with written := reporter.written ++ message }, some ExitCode.noInput⟩

/-- The turns from a line on, the first after what is in `stdout` and in the reporter. -/
def turns (stdout : String) (reporter : Reporter) : List (List UInt8) → Output
  | [] =>
    let t := turn reporter none
    ⟨t.exit.getD ExitCode.success, stdout ++ prompt ++ t.stdout, t.reporter.written⟩
  | line :: lines =>
    let t := turn reporter (some line)
    let stdout := stdout ++ prompt ++ t.stdout
    match t.exit with
    | some code => ⟨code, stdout, t.reporter.written⟩
    | none => turns stdout t.reporter lines

def run (input : List UInt8) : Output := turns "" Reporter.fresh (Text.lines input)

end Repl

end Lox
