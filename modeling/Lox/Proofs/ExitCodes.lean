import Lox.Command.Basic
import Lox.Proofs.Encoding
import Lox.Proofs.Verdict

/-!
# What a batch command leaves behind

The exit code of a batch command comes from the number of reports (`Batch.exitCode_reportAll`), and
what `parse` prints comes from the verdict. These agree, for a source has a tree exactly if nothing
is reported: either the tree is printed and nothing else happens, or there are diagnostics and
nothing is printed (`Batch.parse_cases`). A command on a file with the bytes of a source does what
it does on the source (`Input.Gives.run_eq`), and so all of this is seen from outside, where
`tokenize` never finds more fault with a source than `parse` (`Command.run_batch`).
-/

namespace Lox

/-- Diagnostics as they are written, a line each. -/
def Diagnostic.listing (ds : List Diagnostic) : String :=
  String.join (ds.map fun d => d.text ++ "\n")

theorem Diagnostic.listing_append (ds es : List Diagnostic) :
    listing (ds ++ es) = listing ds ++ listing es := by
  simp [listing]

namespace Sink

theorem reportAll_reporter : ∀ (ds : List Diagnostic) (r : Reporter),
    reportAll r ds = ⟨r.errorCount + ds.length, r.written ++ Diagnostic.listing ds⟩
  | [], _ => by simp [reportAll, Diagnostic.listing]
  | d :: ds, r => by
    show reportAll (report r d) ds = _
    rw [reportAll_reporter ds]
    simp only [report, Diagnostic.listing, List.length_cons, List.map_cons, String.join_cons,
      String.append_assoc, Nat.add_assoc, Nat.add_comm 1]

end Sink

namespace Scan

open Tile

/-- What is wrong with a source, tile by tile. -/
theorem blames_diagnostics (source : String) :
    List.Forall₂ (fun p d => p.2.Blames p.1 d)
      ((placed 1 (all source.toList)).filter (·.2.isFault)) (ofSource source).diagnostics :=
  forall₂_filterMap (fun _ _ ht => exists_diagnostic ht) fun _ ht => diagnostic?_eq_none ht

theorem exists_tokens (source : String) : ∃ tokens eof,
    (ofSource source).tokens = tokens ++ [eof] ∧ eof.isEof ∧ ∀ t ∈ tokens, !t.isEof := by
  refine ⟨_, _, rfl, rfl, fun t ht => ?_⟩
  obtain ⟨p, -, hp⟩ := List.mem_filterMap.1 ht
  exact not_isEof_token? hp

end Scan

namespace Batch

theorem exitCode_reportAll (ds : List Diagnostic) :
    exitCode (Sink.reportAll Reporter.fresh ds) =
      if ds = [] then ExitCode.success else ExitCode.dataError := by
  unfold exitCode
  rw [Sink.reportAll_reporter]
  by_cases h : ds = []
  · simp [h, Reporter.hadError, Reporter.fresh]
  · simp [h, Reporter.hadError]

theorem written_reportAll (ds : List Diagnostic) :
    (Sink.reportAll Reporter.fresh ds).written = Diagnostic.listing ds := by
  simp [Sink.reportAll_reporter, Reporter.fresh]

theorem tokenize_eq (source : String) :
    tokenize source = ⟨if (Scan.ofSource source).diagnostics = [] then ExitCode.success
      else ExitCode.dataError, listing (Scan.ofSource source).tokens,
      Diagnostic.listing (Scan.ofSource source).diagnostics⟩ := by
  unfold tokenize
  simp only [exitCode_reportAll, written_reportAll]

theorem reports_parseSource (source : String) :
    (parseSource source ([] : List Diagnostic)).2 = (Scan.ofSource source).diagnostics ++
      Rule.reported (parseTokens (Scan.ofSource source).tokens).1 := by
  rw [snd_parseSource, Session.reportAll_eq_append, List.nil_append]

theorem reports_eq_nil_iff (source : String) :
    (parseSource source ([] : List Diagnostic)).2 = [] ↔
      ∃ tree, (parseSource source ([] : List Diagnostic)).1 = .ok tree := by
  have hverdict (tree : Expr) : (parseSource source ([] : List Diagnostic)).1 = .ok tree ↔
      (parseTokens (Scan.ofSource source).tokens).1 = .ok tree ∧
        (Scan.ofSource source).diagnostics.length = 0 := sourceResult_eq_ok_iff
  simp only [reports_parseSource, hverdict, List.append_eq_nil_iff, reported_eq_nil_iff,
    List.length_eq_zero_iff, exists_and_right]
  exact and_comm

/-- The exit code goes by what is reported, and the output by the verdict. -/
theorem parse_eq (source : String) :
    let verdict := (parseSource source ([] : List Diagnostic)).1
    let ds := (parseSource source ([] : List Diagnostic)).2
    parse source = ⟨if ds = [] then ExitCode.success else ExitCode.dataError, treeLine verdict,
      Diagnostic.listing ds⟩ := by
  unfold parse
  simp only [reports_parseSource, snd_parseSource source Reporter.fresh, exitCode_reportAll,
    written_reportAll]
  rfl

/-- There is a tree and nothing to report, or there are reports and no tree. -/
theorem parse_cases (source : String) :
    let verdict := (parseSource source ([] : List Diagnostic)).1
    let ds := (parseSource source ([] : List Diagnostic)).2
    (∃ tree, verdict = .ok tree ∧ ds = [] ∧
        parse source = ⟨ExitCode.success, tree.text ++ "\n", ""⟩) ∨
      ∃ e, verdict = .error e ∧ ds ≠ [] ∧
        parse source = ⟨ExitCode.dataError, "", Diagnostic.listing ds⟩ := by
  intro verdict ds
  have heq : parse source = ⟨if ds = [] then ExitCode.success else ExitCode.dataError,
      treeLine verdict, Diagnostic.listing ds⟩ := parse_eq source
  have hiff : ds = [] ↔ ∃ tree, verdict = .ok tree := reports_eq_nil_iff source
  by_cases hds : ds = []
  · obtain ⟨tree, htree⟩ := hiff.1 hds
    rw [if_pos hds, htree, hds] at heq
    exact .inl ⟨tree, htree, hds, heq⟩
  · rcases hverdict : verdict with e | tree
    · rw [if_neg hds, hverdict] at heq
      exact .inr ⟨e, rfl, hds, heq⟩
    · exact absurd (hiff.2 ⟨tree, hverdict⟩) hds

end Batch

/-- A source, or the path of a file with the bytes of the source. -/
inductive Input.Gives (files : String → Except ReadError ByteArray) (source : String) : Input → Prop
  | source : Gives files source (.source source)
  | file {path : String} : files path = .ok source.toUTF8 → Gives files source (.file path)

theorem Input.Gives.run_eq {files : String → Except ReadError ByteArray} {source : String}
    {input : Input} (h : input.Gives files source) (command : String → Output) :
    input.run files command = command source := by
  cases h with
  | source => rfl
  | @file path h =>
    have hread : (files path >>= decodeText) = .ok source := by
      rw [h]
      exact Text.decodeText_toUTF8 source
    simp only [run, hread]

/-- A source has the same effect from a file. `parse` prints its tree and ends well, or prints
nothing and fails with what is wrong: all that is wrong with its tiles, in order, and at most one
syntax error behind. `tokenize` lists the tokens up to the end of input in any case, and fails
exactly if something is wrong with the tiles, of which it writes all. -/
theorem Command.run_batch {files : String → Except ReadError ByteArray} {source : String}
    {input : Input} (h : input.Gives files source) (stdin : List UInt8) :
    let scan := Scan.ofSource source
    let verdict := (parseSource source ([] : List Diagnostic)).1
    let ds := (parseSource source ([] : List Diagnostic)).2
    let p := run files stdin (.parse input)
    let t := run files stdin (.tokenize input)
    (p = run files stdin (.parse (.source source)) ∧
        t = run files stdin (.tokenize (.source source))) ∧
      ((∃ tree, verdict = .ok tree ∧ ds = [] ∧
          p = ⟨ExitCode.success, tree.text ++ "\n", ""⟩) ∨
        ∃ e, verdict = .error e ∧ ds ≠ [] ∧
          p = ⟨ExitCode.dataError, "", Diagnostic.listing ds⟩) ∧
      (∃ syntactic, ds = scan.diagnostics ++ syntactic ∧
        (syntactic = [] ∨ ∃ e, syntactic = [.parse e]) ∧
        (∀ d ∈ scan.diagnostics, d.isLexical) ∧
        List.Forall₂ (fun q d => q.2.Blames q.1 d)
          ((Tile.placed 1 (Tile.all source.toList)).filter (·.2.isFault)) scan.diagnostics) ∧
      t = ⟨if scan.diagnostics = [] then ExitCode.success else ExitCode.dataError,
        String.join (scan.tokens.map fun t => t.text ++ "\n"),
        Diagnostic.listing scan.diagnostics⟩ ∧
      (∃ tokens eof, scan.tokens = tokens ++ [eof] ∧ eof.isEof ∧ ∀ t ∈ tokens, !t.isEof) ∧
      (t.code = ExitCode.dataError → p.code = ExitCode.dataError) ∧
      ∃ more, p.stderr = t.stderr ++ more := by
  intro scan verdict ds p t
  have hp : p = Batch.parse source := h.run_eq Batch.parse
  have ht : t = ⟨if scan.diagnostics = [] then ExitCode.success else ExitCode.dataError,
      Batch.listing scan.tokens, Diagnostic.listing scan.diagnostics⟩ :=
    (h.run_eq Batch.tokenize).trans (Batch.tokenize_eq source)
  have hds : ds = scan.diagnostics ++ Rule.reported (parseTokens scan.tokens).1 :=
    Batch.reports_parseSource source
  have heq : p = ⟨if ds = [] then ExitCode.success else ExitCode.dataError,
      Batch.treeLine verdict, Diagnostic.listing ds⟩ := hp.trans (Batch.parse_eq source)
  refine ⟨⟨hp, h.run_eq Batch.tokenize⟩, hp ▸ Batch.parse_cases source, ⟨_, hds, ?_,
    fun _ => Scan.isLexical_of_mem, Scan.blames_diagnostics source⟩, ht,
    Scan.exists_tokens source, ?_,
    Diagnostic.listing (Rule.reported (parseTokens scan.tokens).1), ?_⟩
  · rcases (parseTokens scan.tokens).1 with e | tree
    · exact .inr ⟨e, rfl⟩
    · exact .inl rfl
  · intro hcode
    have hfound : scan.diagnostics ≠ [] := by
      intro hnil
      rw [ht, hnil] at hcode
      cases hcode
    have hne : ds ≠ [] := by
      rw [hds]
      exact List.append_ne_nil_of_left_ne_nil hfound _
    rw [heq]
    exact if_neg hne
  · rw [heq, ht, hds, Diagnostic.listing_append]

/-- A file with a stray character and a bracket behind which nothing follows. -/
theorem Command.run_batch_file :
    let source := "#("
    let files : String → Except ReadError ByteArray := fun path =>
      if path = "a.lox" then .ok source.toUTF8 else .error (.system "No such file or directory" 2)
    let stray := "[line 1] Error: Unexpected character: #\n"
    files "a.lox" = .ok source.toUTF8 ∧
      run files [] (.tokenize (.file "a.lox")) =
        ⟨ExitCode.dataError, "LEFT_PAREN ( null\nEOF  null\n", stray⟩ ∧
      run files [] (.parse (.file "a.lox")) =
        ⟨ExitCode.dataError, "", stray ++ "[line 1] Error at end: Expect expression.\n"⟩ := by
  intro source files stray
  have hfile : files "a.lox" = .ok source.toUTF8 := if_pos rfl
  have htokens : String.join ((Scan.ofSource source).tokens.map fun t => t.text ++ "\n") =
      "LEFT_PAREN ( null\nEOF  null\n" := by decide +kernel
  have hfound : (Scan.ofSource source).diagnostics = [.unexpectedCharacter '#' 1] := by
    decide +kernel
  have hds : (parseSource source ([] : List Diagnostic)).2 =
      [.unexpectedCharacter '#' 1, .parse ⟨.expectExpression, .eof 1⟩] := by decide +kernel
  obtain ⟨-, hp, -, ht, -⟩ := run_batch (.file hfile) []
  refine ⟨hfile, ht.trans ?_, ?_⟩
  · rw [hfound, htokens]
    exact congrArg (Output.mk _ _) (by decide +kernel)
  · rcases hp with ⟨-, -, hnil, -⟩ | ⟨-, -, -, hp⟩
    · rw [hds] at hnil
      cases hnil
    · rw [hds] at hp
      exact hp.trans (congrArg (Output.mk _ _) (by decide +kernel))

end Lox
