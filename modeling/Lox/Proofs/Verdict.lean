import Lox.Proofs.Onward
import Lox.Proofs.Reports
import Lox.Source.Parse

/-!
# The verdict on a source

A source can be read with one sink for all that is wrong with it: the tiles are gone through with a
`Counter` before the sink, which counts what the scan reports, and then the parse reports to the
sink itself. `readSource` reads like that, and gives what `parseSource` gives (`readSource_eq`),
which puts the scan's diagnostics and the parse's error together afterwards.

So all that is wrong is reported, once and in order, a failed parse decides the verdict whatever the
scan has found, and a source has a tree exactly if nothing is reported
(`parseSource_reports_all`).
-/

namespace Lox

/-- Passes on what is reported, and counts what is lexical. -/
structure Counter (σ : Type) where
  inner : σ
  lexical : Nat

variable {σ : Type} [Sink σ]

instance : Sink (Counter σ) where
  report k d := ⟨Sink.report k.inner d, if d.isLexical then k.lexical + 1 else k.lexical⟩

namespace Sink

theorem reportAll_append (sink : σ) (ds es : List Diagnostic) :
    reportAll sink (ds ++ es) = reportAll (reportAll sink ds) es :=
  List.foldl_append

theorem reportAll_counter : ∀ (ds : List Diagnostic) (k : Counter σ), (∀ d ∈ ds, d.isLexical) →
    reportAll k ds = ⟨reportAll k.inner ds, k.lexical + ds.length⟩
  | [], _, _ => rfl
  | d :: ds, k, h => by
    obtain ⟨hd, hds⟩ := List.forall_mem_cons.1 h
    have hk : report k d = ⟨report k.inner d, k.lexical + 1⟩ := by
      simp [report, hd]
    show reportAll (report k d) ds = _
    rw [hk, reportAll_counter ds _ hds]
    simp only [List.length_cons, Nat.add_assoc, Nat.add_comm 1]
    rfl

end Sink

namespace Scan

open Tile

/-- Goes through tiles from a line on, and reports what is wrong with one when it comes to it. -/
def through (sink : σ) (line : Nat) : List Tile → List Token × σ
  | [] => ([Token.eof line], sink)
  | t :: ts =>
    let line := t.endLine line
    let sink := match t.diagnostic? line with
      | some d => Sink.report sink d
      | none => sink
    let (tokens, sink) := through sink line ts
    ((t.token? line).toList ++ tokens, sink)

theorem through_eq : ∀ (ts : List Tile) (line : Nat) (sink : σ),
    through sink line ts =
      ((placed line ts).filterMap (fun p => p.2.token? p.1) ++ [Token.eof (lastLine line ts)],
        Sink.reportAll sink ((placed line ts).filterMap fun p => p.2.diagnostic? p.1))
  | [], _, _ => rfl
  | t :: ts, line, sink => by
    simp only [through, through_eq ts, filterMap_placed_cons, List.append_assoc]
    cases t.diagnostic? (t.endLine line) <;> rfl

theorem through_all (source : String) (sink : σ) :
    through sink 1 (all source.toList) =
      ((ofSource source).tokens, Sink.reportAll sink (ofSource source).diagnostics) :=
  through_eq _ _ _

theorem isLexical_of_mem {source : String} {d : Diagnostic}
    (h : d ∈ (ofSource source).diagnostics) : d.isLexical := by
  obtain ⟨⟨line, t⟩, -, hp⟩ := List.mem_filterMap.1 h
  cases blames_of_diagnostic? hp <;> rfl

end Scan

/-- Reads a source and reports to the sink as it goes. -/
def readSource (source : String) (sink : σ) : Except SourceError Expr × σ :=
  let (tokens, counter) := Scan.through (Counter.mk sink 0) 1 (Tile.all source.toList)
  let (result, session) := parseTokens tokens
  let sink := Sink.reportAll counter.inner session.reports
  match result with
  | .error e => (.error (.parse e), sink)
  | .ok tree =>
    if 0 < counter.lexical then (.error (.lexical counter.lexical), sink) else (.ok tree, sink)

section Result

variable {found n : Nat} {parsed : Except ParseError Expr}

theorem sourceResult_eq_parse_iff {e : ParseError} :
    sourceResult found parsed = .error (.parse e) ↔ parsed = .error e := by
  rcases parsed with e' | tree
  · simp [sourceResult]
  · simp only [sourceResult]
    split_ifs <;> simp

theorem sourceResult_eq_lexical_iff :
    sourceResult found parsed = .error (.lexical n) ↔
      (∃ tree, parsed = .ok tree) ∧ found ≠ 0 ∧ n = found := by
  rcases parsed with e | tree
  · simp [sourceResult]
  · simp only [sourceResult]
    split_ifs with h
    · simp [h]
    · simp [h, eq_comm]

theorem sourceResult_eq_ok_iff {tree : Expr} :
    sourceResult found parsed = .ok tree ↔ parsed = .ok tree ∧ found = 0 := by
  rcases parsed with e | tree'
  · simp [sourceResult]
  · simp only [sourceResult]
    split_ifs with h <;> simp [h]

theorem reported_eq_nil_iff : Rule.reported parsed = [] ↔ ∃ tree, parsed = .ok tree := by
  rcases parsed with e | tree <;> simp [Rule.reported]

end Result

section Verdict

variable (source : String) (sink : σ)

theorem readSource_eq : readSource source sink = parseSource source sink := by
  have hcount := Sink.reportAll_counter (Scan.ofSource source).diagnostics ⟨sink, 0⟩
    fun _ => Scan.isLexical_of_mem
  unfold readSource parseSource
  simp only [Scan.through_all, hcount, Nat.zero_add]
  rcases (parseTokens (Scan.ofSource source).tokens).1 with e | tree
  · rfl
  · rcases (Scan.ofSource source).diagnostics.length with _ | n <;> rfl

theorem reports_parseTokens (tokens : List Token) :
    (parseTokens tokens).2.reports = Rule.reported (parseTokens tokens).1 :=
  Session.reports_of_parse (s := Session.start .standard tokens) rfl

theorem snd_parseSource :
    (parseSource source sink).2 = Sink.reportAll sink ((Scan.ofSource source).diagnostics ++
      Rule.reported (parseTokens (Scan.ofSource source).tokens).1) := by
  rw [Sink.reportAll_append, ← reports_parseTokens]
  rfl

/-- The scan's diagnostics are reported, in order, and behind them the error of the parse, if there
is one. It is the verdict then; else the verdict is the number of reports, if there are any, and
only where there are none it is the tree. -/
theorem parseSource_reports_all {σ : Type} [Sink σ] (source : String) (sink : σ) :
    let found := (Scan.ofSource source).diagnostics
    let parsed := (parseTokens (Scan.ofSource source).tokens).1
    let reports := found ++ Rule.reported parsed
    let verdict := (parseSource source sink).1
    readSource source sink = parseSource source sink ∧
      (parseSource source sink).2 = Sink.reportAll sink reports ∧
      (∀ held : List Diagnostic, (parseSource source held).2 = held ++ reports) ∧
      (∀ e, verdict = .error (.parse e) ↔ parsed = .error e) ∧
      (∀ n, verdict = .error (.lexical n) ↔
        (∃ tree, parsed = .ok tree) ∧ found ≠ [] ∧ n = found.length) ∧
      (∀ tree, verdict = .ok tree ↔ parsed = .ok tree ∧ found = []) ∧
      ((∃ tree, verdict = .ok tree) ↔ reports = []) ∧
      ∀ n, verdict = .error (.lexical n) → 1 ≤ n ∧ n = reports.length := by
  intro found parsed reports verdict
  have hverdict : verdict = sourceResult found.length parsed := rfl
  have hfound : found.length = 0 ↔ found = [] := List.length_eq_zero_iff
  have hlexical (n : Nat) : verdict = .error (.lexical n) ↔
      (∃ tree, parsed = .ok tree) ∧ found ≠ [] ∧ n = found.length := by
    rw [hverdict, sourceResult_eq_lexical_iff, Ne, hfound]
  have hok (tree : Expr) : verdict = .ok tree ↔ parsed = .ok tree ∧ found = [] := by
    rw [hverdict, sourceResult_eq_ok_iff, hfound]
  refine ⟨readSource_eq source sink, snd_parseSource source sink, fun held => ?_,
    fun _ => sourceResult_eq_parse_iff, hlexical, hok, ?_, fun n hn => ?_⟩
  · rw [snd_parseSource, Session.reportAll_eq_append]
  · simp only [hok, exists_and_right, reports, List.append_eq_nil_iff, reported_eq_nil_iff]
    exact and_comm
  · obtain ⟨hparsed, hne, rfl⟩ := (hlexical n).1 hn
    refine ⟨List.length_pos_iff.2 hne, ?_⟩
    simp only [reports, reported_eq_nil_iff.2 hparsed, List.append_nil]

end Verdict

end Lox
