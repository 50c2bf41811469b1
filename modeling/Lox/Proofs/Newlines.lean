import Lox.Proofs.Tiling
import Lox.Source.Scan

/-!
# Newlines and the line counter

A scan does not search its text for newlines. It counts one where a tile is a newline and those in
the body of a string, and passes over every other tile. Nothing is missed: blanks, comments,
numbers, words and marks have no newline in them, and a newline is never a stray character. So a
tile that stands in a text moves the line on by the newlines of the tile
(`Tile.Stands.endLine_eq`), and at every tile the line counted is that of the text up to there
(`Tile.Tiling.lastLine_upTo`, `Tile.Tiling.lastLine_eq`).
-/

namespace Lox

namespace Tile

def isSpace (c : Char) : Bool := isBlank c || c == '\n'

/-- The newlines in the text of some tiles. -/
def newlines (ts : List Tile) : Nat := (ts.flatMap text).count '\n'

section Spaceless

variable {c : Char} {text : List Char}

theorem isSpace_iff : isSpace c ↔ ((c = ' ' ∨ c = '\t') ∨ c = '\r') ∨ c = '\n' := by
  simp [isSpace, isBlank]

theorem IsNumber.not_isSpace (h : IsNumber text) : ∀ c ∈ text, ¬ isSpace c := by
  have hdigit : ∀ c : Char, c.isDigit → ¬ isSpace c := by
    intro c hd hs
    rcases isSpace_iff.1 hs with ((rfl | rfl) | rfl) | rfl <;> cases hd
  obtain ⟨whole, hw, rfl | ⟨part, hp, rfl⟩⟩ := h
  · exact fun c hc => hdigit c (hw.2 c hc)
  · intro c hc
    rcases List.mem_append.1 hc with hc | hc
    · exact hdigit c (hw.2 c hc)
    · rcases List.mem_cons.1 hc with rfl | hc
      · decide
      · exact hdigit c (hp.2 c hc)

theorem IsWord.not_isSpace (h : IsWord text) : ∀ c ∈ text, ¬ isSpace c := by
  obtain ⟨x, xs, rfl, hx, hxs⟩ := h
  intro c hc hs
  rcases List.mem_cons.1 hc with rfl | hc
  · rcases isSpace_iff.1 hs with ((rfl | rfl) | rfl) | rfl <;> cases hx
  · have hc := hxs c hc
    rcases isSpace_iff.1 hs with ((rfl | rfl) | rfl) | rfl <;> cases hc

theorem not_isSpace_of_all (h : text.all (!isSpace ·)) : ∀ c ∈ text, ¬ isSpace c := by
  simpa using h

theorem IsSign.not_isSpace (h : IsSign text) : ∀ c ∈ text, ¬ isSpace c := by
  rcases h with rfl | ⟨m, rfl⟩
  · exact not_isSpace_of_all rfl
  · cases m <;> exact not_isSpace_of_all rfl

theorem newline_notMem (h : ∀ c ∈ text, ¬ isSpace c) : '\n' ∉ text := fun hm => h _ hm rfl

end Spaceless

section Counted

variable {t : Tile} {text rest : List Char} {before after ts : List Tile}

theorem newlines_cons (t : Tile) (ts : List Tile) :
    newlines (t :: ts) = t.text.count '\n' + newlines ts := by
  rw [newlines, List.flatMap_cons, List.count_append, newlines]

theorem newlines_append (ts us : List Tile) : newlines (ts ++ us) = newlines ts + newlines us := by
  rw [newlines, List.flatMap_append, List.count_append, newlines, newlines]

theorem Tiling.newlines_eq (h : Tiling text ts) : newlines ts = text.count '\n' := by
  rw [h.eq_all, newlines, flatMap_text_all]

theorem le_endLine (line : Nat) (t : Tile) : line ≤ t.endLine line := by
  cases t with
  | newline | string body | openString body => exact Nat.le_add_right _ _
  | _ => exact Nat.le_refl _

theorem le_lastLine (line : Nat) (ts : List Tile) : line ≤ lastLine line ts := by
  induction ts generalizing line with
  | nil => exact Nat.le_refl _
  | cons t ts ih => exact Nat.le_trans (le_endLine line t) (ih _)

theorem endLine_add (line lines : Nat) (t : Tile) :
    t.endLine (line + lines) = t.endLine line + lines := by
  cases t with
  | newline | string body | openString body => exact Nat.add_right_comm ..
  | _ => rfl

theorem Stands.stray_ne_newline {c : Char} (h : (stray c).Stands rest) : c ≠ '\n' := by
  rintro rfl
  rcases h with h | ⟨c, hc, hno⟩
  · exact h
  · cases hc
    exact hno newline rest rfl trivial

/-- A tile in a text moves the line on by the newlines of the tile. -/
theorem Stands.endLine_eq (h : t.Stands rest) (line : Nat) :
    t.endLine line = line + t.text.count '\n' := by
  have hflat : '\n' ∉ t.text → line = line + t.text.count '\n' := fun hn => by
    rw [List.count_eq_zero.2 hn, Nat.add_zero]
  rcases h with hf | ⟨c, rfl, hno⟩
  · cases t with
    | newline => rfl
    | string body | openString body => simp [endLine, Tile.text]
    | blanks run => exact hflat fun hm => by cases hf.1.2 _ hm
    | comment body => exact hflat (by simpa [Tile.text] using hf.1)
    | number digits => exact hflat (newline_notMem hf.1.not_isSpace)
    | word letters => exact hflat (newline_notMem hf.1.not_isSpace)
    | mark m => exact hflat (newline_notMem hf.1.not_isSpace)
    | stray c => exact hf.elim
  · have hs : (stray c).Stands rest := .inr ⟨c, rfl, hno⟩
    exact hflat fun hm => hs.stray_ne_newline (List.mem_singleton.1 hm).symm

theorem Tiling.stands (h : Tiling text ts) (ht : t ∈ ts) : ∃ rest, t.Stands rest := by
  induction h with
  | nil => cases ht
  | cons hs _ ih =>
    rcases List.mem_cons.1 ht with rfl | ht
    · exact ⟨_, hs⟩
    · exact ih ht

theorem lastLine_of_stands (h : ∀ t ∈ ts, ∃ rest, t.Stands rest) (line : Nat) :
    lastLine line ts = line + newlines ts := by
  induction ts generalizing line with
  | nil => rfl
  | cons t ts ih =>
    obtain ⟨⟨rest, hs⟩, hts⟩ := List.forall_mem_cons.1 h
    show lastLine (t.endLine line) ts = _
    rw [ih hts, hs.endLine_eq, newlines_cons, Nat.add_assoc]

/-- Behind a tile of a text. -/
theorem Tiling.lastLine_upTo (h : Tiling text (before ++ t :: after)) (line : Nat) :
    lastLine line (before ++ [t]) = line + newlines (before ++ [t]) := by
  rw [List.append_cons] at h
  exact lastLine_of_stands (fun u hu => h.stands (List.mem_append_left _ hu)) line

/-- Behind the whole of it. -/
theorem Tiling.lastLine_eq (h : Tiling text ts) (line : Nat) :
    lastLine line ts = line + text.count '\n' := by
  rw [lastLine_of_stands (fun _ ht => h.stands ht), h.newlines_eq]

end Counted

end Tile

end Lox
