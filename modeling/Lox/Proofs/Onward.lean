import Lox.Proofs.Lines

/-!
# Scanning on from a line

`Scan.onward` is what a text gives if it begins on some line, as the rest of a source does. It goes
tile by tile (`Scan.onward_of_stands`), and what gives nothing only moves the line: a blank does not
even do that, whatever run of blanks it is a part of (`Scan.onward_blank`).
-/

namespace Lox

namespace Tile

theorem filterMap_placed_cons {β : Type} (f : Nat × Tile → Option β) (line : Nat) (t : Tile)
    (tiles : List Tile) : (placed line (t :: tiles)).filterMap f =
      (f (t.endLine line, t)).toList ++ (placed (t.endLine line) tiles).filterMap f := by
  rw [placed, List.filterMap_cons]
  cases f (t.endLine line, t) <;> rfl

theorem all_of_stands {t : Tile} {rest : List Char} (h : t.Stands rest) :
    all (t.text ++ rest) = t :: all rest :=
  (Tiling.eq_all (.cons h (tiling_all rest))).symm

end Tile

namespace Scan

open Tile

/-- What a text gives if it begins on `line`, but for the end of input. -/
def onward (line : Nat) (text : List Char) : Scan where
  tokens := (placed line (all text)).filterMap fun (line, t) => t.token? line
  diagnostics := (placed line (all text)).filterMap fun (line, t) => t.diagnostic? line

theorem ofText_eq_onward (text : List Char) :
    ofText text = ⟨(onward 1 text).tokens ++ [Token.eof (1 + text.count '\n')],
      (onward 1 text).diagnostics⟩ := by
  rw [← (tiling_all text).lastLine_eq]
  rfl

theorem tokens_ofText (text : List Char) :
    (ofText text).tokens = (onward 1 text).tokens ++ [Token.eof (1 + text.count '\n')] :=
  congrArg Scan.tokens (ofText_eq_onward text)

section Onward

variable {line : Nat} {c : Char} {body text rest : List Char} {t : Tile}

theorem onward_nil : onward line [] = ⟨[], []⟩ := by
  rw [onward, all]
  rfl

theorem onward_of_stands (h : t.Stands rest) :
    onward line (t.text ++ rest) =
      ⟨(t.token? (t.endLine line)).toList ++ (onward (t.endLine line) rest).tokens,
        (t.diagnostic? (t.endLine line)).toList ++ (onward (t.endLine line) rest).diagnostics⟩ := by
  simp only [onward, all_of_stands h, filterMap_placed_cons]

/-- A tile that gives nothing can only move the line on. -/
theorem onward_of_quiet (h : t.Stands rest) (ht : ¬ t.isToken) (hf : ¬ t.isFault) :
    onward line (t.text ++ rest) = onward (t.endLine line) rest := by
  rw [onward_of_stands h, token?_eq_none ht, diagnostic?_eq_none hf]
  rfl

/-- The run of blanks at the front of a text does nothing. -/
theorem onward_dropWhile (line : Nat) (text : List Char) :
    onward line text = onward line (text.dropWhile isBlank) := by
  rcases text with _ | ⟨c, text⟩
  · rfl
  by_cases hc : isBlank c
  · have hs := stands_next c text
    rw [next_blank hc] at hs
    have hon : onward line (c :: ((cut isBlank text).1 ++ (cut isBlank text).2)) =
        onward line (cut isBlank text).2 :=
      onward_of_quiet hs Bool.false_ne_true Bool.false_ne_true
    rw [cut_append] at hon
    rw [hon, List.dropWhile_cons_of_pos hc, cut]
  · rw [List.dropWhile_cons_of_neg hc]

theorem onward_blank (h : isBlank c) : onward line (c :: text) = onward line text := by
  rw [onward_dropWhile, List.dropWhile_cons_of_pos h, ← onward_dropWhile]

theorem onward_newline : onward line ('\n' :: text) = onward (line + 1) text := by
  have hs : newline.Stands text := .inl trivial
  exact onward_of_quiet hs Bool.false_ne_true Bool.false_ne_true

theorem onward_comment (h : '\n' ∉ body) :
    onward line ((comment body).text ++ '\n' :: text) = onward (line + 1) text := by
  have hs : (comment body).Stands ('\n' :: text) := .inl ⟨h, by simp⟩
  rw [onward_of_quiet hs Bool.false_ne_true Bool.false_ne_true]
  exact onward_newline

end Onward

end Scan

end Lox
