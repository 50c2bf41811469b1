import Lox.Proofs.Spacing

/-!
# Stray characters

A character that is no part of any token keeps the tiles around it apart as a space does. With
spaces for the stray characters of a text, its other tiles stand where they stood, for no number,
word or mark goes on with a space (`Tile.Fits.blanked`), but that spaces run together with the
blanks next to them, and blanks give nothing. So the text with the spaces scans to the same tokens,
and nothing is wrong with it but what was wrong besides the stray characters (`Scan.scan_cleared`).
-/

namespace Lox

/-- The character, if it is reported as one that was not expected. -/
def Diagnostic.stray? : Diagnostic → Option Char
  | unexpectedCharacter c _ => some c
  | _ => none

namespace Tile

/-- The text of a tile, a space if it is a stray character. -/
def cleared : Tile → List Char
  | stray _ => [' ']
  | t => t.text

/-- A text with spaces in the place of some characters, of which none is a newline. -/
def Blanked (text text' : List Char) : Prop :=
  List.Forall₂ (fun c d => d = c ∨ d = ' ' ∧ c ≠ '\n') text text'

section Blanked

variable {p : List Char → Prop} {t : Tile} {c : Char} {text text' rest rest' more : List Char}

theorem Blanked.same : Blanked text text := List.forall₂_same.2 fun _ _ => .inl rfl

theorem Blanked.count_eq (h : Blanked text text') : text'.count '\n' = text.count '\n' := by
  induction h with
  | nil => rfl
  | @cons c d cs ds hc _ ih =>
    rcases hc with rfl | ⟨rfl, hc⟩
    · rw [List.count_cons, List.count_cons, ih]
    · rw [List.count_cons_of_ne (by decide), List.count_cons_of_ne hc, ih]

/-- What has no space in it stood there before. -/
theorem Blanked.prefix_of_notMem (h : Blanked rest rest') (hm : more <+: rest') (hno : ' ' ∉ more) :
    more <+: rest := by
  induction h generalizing more with
  | nil => exact hm
  | @cons c d cs ds hc _ ih =>
    rcases more with _ | ⟨x, xs⟩
    · exact List.nil_prefix
    · obtain ⟨rfl, hxs⟩ := List.cons_prefix_cons.1 hm
      simp only [List.mem_cons, not_or] at hno
      rcases hc with rfl | ⟨rfl, -⟩
      · exact List.cons_prefix_cons.2 ⟨rfl, ih hxs hno.2⟩
      · exact absurd rfl hno.1

theorem Longest.blanked (h : Longest p text rest) (hb : Blanked rest rest')
    (hp : ∀ text, p text → ∀ c ∈ text, ¬ isSpace c) : Longest p text rest' := by
  refine ⟨h.1, fun more hne hm hmore => ?_⟩
  have hno : ' ' ∉ more := fun hspace =>
    hp _ hmore ' ' (List.mem_append_right _ hspace) (by decide)
  exact h.2 more hne (hb.prefix_of_notMem hm hno) hmore

/-- A tile that is no run of blanks fits before spaces if it fits before what they stand for. -/
theorem Fits.blanked (h : t.Fits rest) (ht : ∀ run, t ≠ blanks run) (hb : Blanked rest rest') :
    t.Fits rest' := by
  cases t with
  | blanks run => exact absurd rfl (ht run)
  | newline => trivial
  | comment body =>
    refine ⟨h.1, ?_⟩
    rcases hb with _ | ⟨hc, -⟩
    · simp
    · rintro _ ⟨_⟩
      rcases hc with rfl | ⟨rfl, hc⟩
      · exact h.2 _ rfl
      · exact absurd (h.2 _ rfl) hc
  | string body => exact h
  | openString body =>
    obtain ⟨hno, rfl⟩ := h
    exact ⟨hno, List.forall₂_nil_left_iff.1 hb⟩
  | number digits => exact Longest.blanked h hb fun _ => IsNumber.not_isSpace
  | word letters => exact Longest.blanked h hb fun _ => IsWord.not_isSpace
  | mark m => exact Longest.blanked h hb fun _ => IsSign.not_isSpace
  | stray _ => exact h.elim

theorem Stands.stray_not_isBlank (h : (stray c).Stands rest) : ¬ isBlank c := by
  intro hc
  have hnext := h.next_eq (show [c] ++ rest = c :: rest from rfl)
  rw [next_blank hc] at hnext
  cases hnext

theorem Tiling.blanked {tiles : List Tile} (h : Tiling text tiles) :
    Blanked text (tiles.flatMap cleared) := by
  induction h with
  | nil => exact .nil
  | @cons t rest ts hs _ ih =>
    refine List.rel_append ?_ ih
    cases t with
    | stray c => exact .cons (.inr ⟨rfl, hs.stray_ne_newline⟩) .nil
    | _ => exact Blanked.same

end Blanked

section Changed

variable {line : Nat} {tiles : List Tile} {text : List Char}

/-- The places at which a text and another of its length differ, with what stands there in both. -/
def changes (text text' : List Char) : List (Char × Char) :=
  (text.zip text').filter fun p => p.1 ≠ p.2

theorem changes_same (text : List Char) : changes text text = [] := by
  induction text with
  | nil => rfl
  | cons c text ih => simpa [changes] using ih

theorem length_cleared (t : Tile) : t.text.length = t.cleared.length := by cases t <;> rfl

/-- The stray characters are what is changed. -/
theorem Tiling.changes_cleared (h : Tiling text tiles) (line : Nat) :
    changes text (tiles.flatMap cleared) =
      (((placed line tiles).filterMap fun p => p.2.diagnostic? p.1).filterMap
        Diagnostic.stray?).map fun c => (c, ' ') := by
  induction h generalizing line with
  | nil => rfl
  | @cons t rest ts hs _ ih =>
    have happend : changes (t.text ++ rest) (t.cleared ++ ts.flatMap cleared) =
        changes t.text t.cleared ++ changes rest (ts.flatMap cleared) := by
      rw [changes, List.zip_append (length_cleared t), List.filter_append]
      rfl
    rw [List.flatMap_cons, happend, ih (t.endLine line), filterMap_placed_cons,
      List.filterMap_append, List.map_append]
    congr 1
    cases t with
    | stray c =>
      have hc : c ≠ ' ' := fun he => hs.stray_not_isBlank (he ▸ rfl)
      simp [changes, Tile.text, cleared, diagnostic?, Diagnostic.stray?, hc]
    | _ => exact changes_same _

end Changed

end Tile

namespace Scan

open Tile

variable {line : Nat} {run text : List Char} {tiles : List Tile}

theorem onward_run (h : ∀ c ∈ run, isBlank c) : onward line (run ++ text) = onward line text := by
  induction run with
  | nil => rfl
  | cons c run ih =>
    obtain ⟨hc, hrun⟩ := List.forall_mem_cons.1 h
    rw [List.cons_append, onward_blank hc, ih hrun]

theorem filter_diagnostic? {t : Tile} {rest : List Char} (h : t.Fits rest) :
    (t.diagnostic? line).toList.filter (·.stray?.isNone) = (t.diagnostic? line).toList := by
  cases t with
  | stray c => exact h.elim
  | _ => rfl

/-- A tile that fits gives the same before spaces. -/
theorem onward_of_fits {t : Tile} {rest rest' : List Char} (h : t.Fits rest)
    (ht : ∀ run, t ≠ blanks run) (hb : Blanked rest rest')
    (hon : ∀ line, onward line rest' = ⟨(onward line rest).tokens,
      (onward line rest).diagnostics.filter (·.stray?.isNone)⟩) :
    onward line (t.text ++ rest') = ⟨(onward line (t.text ++ rest)).tokens,
      (onward line (t.text ++ rest)).diagnostics.filter (·.stray?.isNone)⟩ := by
  rw [onward_of_stands (.inl (h.blanked ht hb)), onward_of_stands (.inl h), hon,
    List.filter_append, filter_diagnostic? h]

/-- Spaces in the place of the stray characters give what the text gives without these. -/
theorem onward_cleared (h : Tiling text tiles) (line : Nat) :
    onward line (tiles.flatMap cleared) = ⟨(onward line text).tokens,
      (onward line text).diagnostics.filter (·.stray?.isNone)⟩ := by
  induction h generalizing line with
  | nil =>
    rw [List.flatMap_nil, onward_nil]
    rfl
  | @cons t rest ts hs hts ih =>
    rw [List.flatMap_cons]
    rcases hs with hfits | ⟨c, rfl, hno⟩
    · cases t with
      -- a run may go on with a space now, and is no tile then, but blanks give nothing one by one
      | blanks run =>
        have hrun : ∀ c ∈ run, isBlank c := hfits.1.2
        exact (onward_run hrun).trans ((ih line).trans (by rw [Tile.text, onward_run hrun]))
      | stray c => exact hfits.elim
      | _ => exact onward_of_fits hfits (by simp) hts.blanked ih
    · have hs : (stray c).Stands rest := .inr ⟨c, rfl, hno⟩
      rw [onward_of_stands hs]
      exact (onward_blank rfl).trans (ih line)

/-- A source with a space in the place of every stray character. -/
def cleared (source : String) : String :=
  String.ofList ((all source.toList).flatMap Tile.cleared)

/-- Where a source is changed by it, in order, stand the characters that are reported as not
expected. The tokens are the same without them, lines and all, and so is what else is reported. -/
theorem scan_cleared (source : String) :
    changes source.toList (cleared source).toList =
        ((ofSource source).diagnostics.filterMap Diagnostic.stray?).map (fun c => (c, ' ')) ∧
      (cleared source).length = source.length ∧
      (ofSource (cleared source)).tokens = (ofSource source).tokens ∧
      (ofSource (cleared source)).diagnostics =
        (ofSource source).diagnostics.filter (·.stray?.isNone) := by
  have htiling := tiling_all source.toList
  have hblanked := htiling.blanked
  have hon := onward_cleared htiling 1
  have htext : (cleared source).toList = (all source.toList).flatMap Tile.cleared :=
    String.toList_ofList
  have hagain : ofSource (cleared source) = ofText ((all source.toList).flatMap Tile.cleared) :=
    congrArg ofText htext
  rw [hagain, htext, ofText_eq_onward, hon, hblanked.count_eq]
  refine ⟨htiling.changes_cleared 1, ?_, (tokens_ofText _).symm, rfl⟩
  rw [← String.length_toList, ← String.length_toList, htext, ← hblanked.length_eq]

/-- Neither a stray character nor its space joins digits to a number, and nothing in a comment or a
string is stray. -/
example : cleared "1#.5 // #\n\"#\"@#" = "1 .5 // #\n\"#\"  " ∧
    (ofSource (cleared "1#.5 // #\n\"#\"@#")).tokens.map (fun t => (t.lexeme, t.line)) =
      [("1", 1), (".", 1), ("5", 1), ("\"#\"", 2), ("", 2)] := by
  decide +kernel

end Scan

end Lox
