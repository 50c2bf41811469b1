import Lox.Proofs.ExitCodes

/-!
# The loop, line by line

For a line that is not blank the loop writes what `Batch.parse` writes for it, and for a blank line
nothing: a parse does not look at what its sink holds, and the reporter has forgotten the errors of
a line before the next (`Repl.answer_eq`). So all that a run carries from line to line is what it
has written (`Repl.turns_append`), and it ends well behind the last line, or with an error at the
first line that is not the bytes of a text (`Repl.run_lines`).
-/

namespace Lox

namespace Repl

/-- What is written to standard output for a line. -/
def shown (line : String) : String :=
  prompt ++ if Text.isBlank line then "" else (Batch.parse line).stdout

/-- What is written to standard error for a line. -/
def blamed (line : String) : String :=
  if Text.isBlank line then "" else (Batch.parse line).stderr

theorem written_parseSource (source : String) (r : Reporter) :
    (parseSource source r).2.written = r.written ++ (Batch.parse source).stderr := by
  have hfresh : (Batch.parse source).stderr = (parseSource source Reporter.fresh).2.written := rfl
  simp only [hfresh, snd_parseSource, Sink.reportAll_reporter, Reporter.fresh, String.empty_append]

/-- The answer to a line depends on nothing but the line. -/
theorem answer_eq (written line : String) :
    answer ⟨0, written⟩ line =
      (if Text.isBlank line then "" else (Batch.parse line).stdout,
        ⟨0, written ++ blamed line⟩) := by
  unfold answer blamed
  split_ifs with h
  · simp
  · have hreset : (parseSource line (Reporter.mk 0 written)).2.reset =
        ⟨0, written ++ (Batch.parse line).stderr⟩ := by
      rw [Reporter.reset, written_parseSource]
    exact congrArg _ hreset

/-- Lines that are texts are answered one by one. -/
theorem turns_append : ∀ (texts : List String) (lines more : List (List UInt8))
    (stdout written : String),
    lines.map (fun line => decodeText ⟨(Text.chomp line).toArray⟩) = texts.map .ok →
    turns stdout ⟨0, written⟩ (lines ++ more) =
      turns (stdout ++ String.join (texts.map shown))
        ⟨0, written ++ String.join (texts.map blamed)⟩ more
  | [], lines, more, stdout, written, h => by
    obtain rfl := List.map_eq_nil_iff.1 h
    simp
  | text :: texts, lines, more, stdout, written, h => by
    obtain ⟨line, lines, rfl, hline, hlines⟩ := List.map_eq_cons_iff.1 h
    have hturn : turn ⟨0, written⟩ (some line) =
        ⟨if Text.isBlank text then "" else (Batch.parse text).stdout,
          ⟨0, written ++ blamed text⟩, none⟩ := by
      simp only [turn, hline, answer_eq]
    rw [List.cons_append, turns]
    simp only [hturn]
    rw [turns_append texts lines more _ _ hlines]
    simp only [List.map_cons, String.join_cons, shown, String.append_assoc]

/-- A run answers the lines of a text one by one and ends well. Where the input is no text, it
answers the lines before the first that is none, and ends there whatever follows. -/
theorem run_lines (input : List UInt8) :
    (∀ text : String, input = text.toUTF8.data.toList →
        run input = ⟨ExitCode.success,
          String.join ((Text.linesOf text).map shown) ++ prompt ++ "\n",
          String.join ((Text.linesOf text).map blamed)⟩) ∧
      (∀ before line rest, Text.BreaksAt input before line rest →
        run input = ⟨ExitCode.noInput, String.join ((Text.linesOf before).map shown) ++ prompt,
          String.join ((Text.linesOf before).map blamed) ++
            "Failed to read from standard input: stream did not contain valid UTF-8\n"⟩) ∧
      ((∃ text : String, input = text.toUTF8.data.toList) ∨
        ∃ before line rest, Text.BreaksAt input before line rest) := by
  simp only [Text.toUTF8_eq_encode]
  refine ⟨?_, fun before line rest h => ?_, Text.exists_breaksAt input⟩
  · rintro text rfl
    have hlines := Text.decode_lines text
    have hturns := turns_append _ _ [] "" "" hlines
    rw [List.append_nil] at hturns
    rw [run, Reporter.fresh, hturns]
    simp [turns, turn]
  · have hline := Text.decodeText_chomp h.ne_encode
    rw [run, h.lines_eq, Reporter.fresh, turns_append _ _ _ "" "" (Text.decode_lines before)]
    simp [turns, turn, hline, ReadError.text]

end Repl

end Lox
