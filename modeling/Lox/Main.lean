import Lox.Command.Basic

/-!
# The program

Reads arguments, files and standard input, and writes what the commands leave behind. Asking for
more log lines changes nothing in it.
-/

namespace Lox

namespace Command

/-- The file a command reads. -/
def path? : Command → Option String
  | tokenize (.file path) | parse (.file path) => some path
  | _ => none

def isVerbosity (arg : String) : Bool :=
  arg == "--verbose" || arg.startsWith "-v" && arg.toList.tail.all (· == 'v')

/-- The input that arguments give: its flag, and one text that a double dash may introduce. -/
def inputOf? (file : Bool) : List String → Option Input
  | [] => none
  | ["--", text] => some (if file then .file text else .source text)
  | arg :: args =>
    if arg = "-f" ∨ arg = "--file" then inputOf? true args
    else if isVerbosity arg then inputOf? file args
    else if args.all isVerbosity ∧ ¬ arg.startsWith "-" then
      some (if file then .file arg else .source arg)
    else none

def ofArguments? : List String → Option Command
  | "tokenize" :: args => (inputOf? false args).map tokenize
  | "parse" :: args => (inputOf? false args).map parse
  | "repl" :: args => if args.all isVerbosity then some repl else none
  | arg :: args => if isVerbosity arg then ofArguments? args else none
  | [] => none

def usage : String :=
  "usage: lox [-v] tokenize [-f] [--] SOURCE\n       lox [-v] parse [-f] [--] SOURCE\n" ++
    "       lox [-v] repl\n"

end Command

/-- The system's message and number for a failed read. -/
def readError : IO.Error → ReadError
  | .noFileOrDirectory .. => .system "No such file or directory" 2
  | .permissionDenied .. => .system "Permission denied" 13
  | .inappropriateType .. => .system "Is a directory" 21
  | e => .system (toString e) 5

def readFile (path : String) : IO (Except ReadError ByteArray) := do
  try return .ok (← IO.FS.readBinFile path)
  catch e => return .error (readError e)

def writeStreams (stdout stderr : String) : IO Unit := do
  (← IO.getStdout).putStr stdout
  (← IO.getStdout).flush
  (← IO.getStderr).putStr stderr

/-- The next line of standard input with its newline, `none` at the end. -/
partial def readLine (line : List UInt8) : IO (Option (List UInt8)) := do
  let bytes ← (← IO.getStdin).read 1
  match bytes.data.toList with
  | [] => return if line.isEmpty then none else some line.reverse
  | b :: _ => if b == Text.newline then return some (b :: line).reverse else readLine (b :: line)

partial def converse (reporter : Reporter) : IO UInt32 := do
  writeStreams Repl.prompt ""
  let turn := Repl.turn reporter (← readLine [])
  writeStreams turn.stdout turn.reporter.written
  match turn.exit with
  | some code => return code
  | none => converse { turn.reporter with written := "" }

def execute : Command → IO UInt32
  | .repl => converse Reporter.fresh
  | command => do
    let content ← match command.path? with
      | some path => readFile path
      | none => pure (.ok .empty)
    let output := command.run (fun _ => content) []
    writeStreams output.stdout output.stderr
    return output.code

end Lox

def main (args : List String) : IO UInt32 :=
  match Lox.Command.ofArguments? args with
  | some command => Lox.execute command
  | none => do
    Lox.writeStreams "" Lox.Command.usage
    return 2
