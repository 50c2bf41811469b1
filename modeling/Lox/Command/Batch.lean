import Lox.Command.Output
import Lox.Reporter
import Lox.Source.Parse

/-!
# Batch commands

`tokenize` lists the tokens of a source, one a line, and `parse` writes its tree. Diagnostics go
to standard error, and the exit code says whether there were any.
-/

namespace Lox

namespace Batch

def exitCode (r : Reporter) : UInt32 :=
  if r.hadError then ExitCode.dataError else ExitCode.success

def listing (tokens : List Token) : String :=
  String.join (tokens.map fun t => t.text ++ "\n")

/-- The tree's line, if there is a tree. -/
def treeLine : Except SourceError Expr → String
  | .ok tree => tree.text ++ "\n"
  | .error _ => ""

def tokenize (source : String) : Output :=
  let scan := Scan.ofSource source
  let reporter := Sink.reportAll Reporter.fresh scan.diagnostics
  ⟨exitCode reporter, listing scan.tokens, reporter.written⟩

def parse (source : String) : Output :=
  let (result, reporter) := parseSource source Reporter.fresh
  ⟨exitCode reporter, treeLine result, reporter.written⟩

end Batch

/-- What follows the name of a batch command: a source, or the path of a file that holds one. -/
inductive Input where
  | source (text : String)
  | file (path : String)

namespace Input

def refusal (path : String) (e : ReadError) : Output :=
  ⟨ExitCode.noInput, "", "Failed to read the input file '" ++ path ++ "': " ++ e.text ++ "\n"⟩

/-- Runs a command on the source, for which `files` says what a path holds. -/
def run (files : String → Except ReadError ByteArray) (command : String → Output) : Input → Output
  | source text => command text
  | file path =>
    match files path >>= decodeText with
    | .ok text => command text
    | .error e => refusal path e

end Input

end Lox
