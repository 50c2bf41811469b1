import Lox.Proofs.Scanning

/-!
# The lines of a scan

A scan counts lines as it goes from tile to tile, and what a tile gives has the line counted up to
its end (`Tile.exists_of_placed`), which the newlines of the text up to there say. A stray character
is no newline, and an open string reaches to the end of the text. So every token and every
diagnostic has the line that the text before it says, and none has a smaller one than those before
it, as the count never goes back (`Scan.scan_lines`).
-/

namespace Lox

namespace Tile

section Placed

variable {β : Type} {f : Nat × Tile → Option β} {p : Tile → Bool} {line i : Nat} {ts : List Tile}

/-- What comes `i`-th from the placed tiles comes from the `i`-th of them that gives anything, with
the line that has been counted up to its end. -/
theorem exists_of_placed {b : β} (hp : ∀ q, (f q).isSome = p q.2)
    (h : ((placed line ts).filterMap f)[i]? = some b) :
    ∃ before t after, ts = before ++ t :: after ∧ (before.filter p).length = i ∧
      f (lastLine line (before ++ [t]), t) = some b := by
  induction ts generalizing line i with
  | nil => cases h
  | cons t ts ih =>
    rw [placed] at h
    rcases ht : f (t.endLine line, t) with _ | b'
    · rw [List.filterMap_cons_none ht] at h
      obtain ⟨before, u, after, rfl, hi, hu⟩ := ih h
      refine ⟨t :: before, u, after, rfl, ?_, hu⟩
      have hno : ¬ p t := by simp [← hp (t.endLine line, t), ht]
      rwa [List.filter_cons_of_neg hno]
    · rw [List.filterMap_cons_some ht] at h
      cases i with
      | zero =>
        cases h
        exact ⟨[], t, ts, rfl, rfl, ht⟩
      | succ i =>
        obtain ⟨before, u, after, rfl, hi, hu⟩ := ih h
        refine ⟨t :: before, u, after, rfl, ?_, hu⟩
        have hyes : p t := by simp [← hp (t.endLine line, t), ht]
        rw [List.filter_cons_of_pos hyes, List.length_cons, hi]

theorem placed_bounds {q : Nat × Tile} (h : q ∈ placed line ts) :
    line ≤ q.1 ∧ q.1 ≤ lastLine line ts := by
  induction ts generalizing line with
  | nil => cases h
  | cons t ts ih =>
    rcases List.mem_cons.1 h with rfl | h
    · exact ⟨le_endLine line t, le_lastLine _ ts⟩
    · exact ⟨Nat.le_trans (le_endLine line t) (ih h).1, (ih h).2⟩

theorem pairwise_placed (line : Nat) (ts : List Tile) :
    (placed line ts).Pairwise (·.1 ≤ ·.1) := by
  induction ts generalizing line with
  | nil => exact .nil
  | cons t ts ih => exact .cons (fun q hq => (placed_bounds hq).1) (ih _)

end Placed

section Given

variable {line : Nat} {t : Tile} {rest : List Char} {before after : List Tile} {text : List Char}

theorem isSome_token? (q : Nat × Tile) : (q.2.token? q.1).isSome = q.2.isToken := by
  obtain ⟨line, t⟩ := q
  cases t <;> rfl

theorem isSome_diagnostic? (q : Nat × Tile) : (q.2.diagnostic? q.1).isSome = q.2.isFault := by
  obtain ⟨line, t⟩ := q
  cases t <;> rfl

theorem line_of_token? {token : Token} (h : t.token? line = some token) : token.line = line := by
  cases t with
  | string | number | word | mark =>
    cases h
    rfl
  | blanks | newline | comment | openString | stray => cases h

theorem blames_of_diagnostic? {d : Diagnostic} (h : t.diagnostic? line = some d) :
    t.Blames line d := by
  cases t with
  | stray c =>
    cases h
    exact .stray c
  | openString body =>
    cases h
    exact .openString body
  | blanks | newline | comment | string | number | word | mark => cases h

theorem Blames.line_eq {d : Diagnostic} (h : t.Blames line d) : d.line = line := by
  cases h <;> rfl

theorem Stands.gives {token : Token} (hs : t.Stands rest) (h : t.token? line = some token) :
    t.Gives line token := by
  have ht : t.isToken := by rw [← isSome_token? (line, t), h, Option.isSome_some]
  obtain ⟨token', h', hg⟩ : ∃ token', t.token? line = some token' ∧ t.Gives line token' :=
    exists_token hs ht
  rw [h] at h'
  cases h'
  exact hg

theorem Stands.openString_rest {body : List Char} (h : (openString body).Stands rest) :
    rest = [] := by
  rcases h with h | ⟨c, hc, -⟩
  · exact h.2
  · cases hc

theorem Tiling.of_append (h : Tiling text (before ++ t :: after)) :
    ∃ rest, t.Stands rest ∧ Tiling rest after := by
  generalize hts : before ++ t :: after = ts at h
  induction h generalizing before with
  | nil => simp at hts
  | cons hs h ih =>
    rcases before with _ | ⟨u, us⟩
    · cases hts
      exact ⟨_, hs, h⟩
    · exact ih (List.cons.inj hts).2

theorem newlines_stray {c : Char} (h : Tiling text (before ++ stray c :: after)) :
    newlines (before ++ [stray c]) = newlines before := by
  obtain ⟨rest, hs, -⟩ := h.of_append
  have hc : ([c] : List Char).count '\n' = 0 :=
    List.count_eq_zero.2 fun hm => hs.stray_ne_newline (List.mem_singleton.1 hm).symm
  rw [newlines_append, newlines_cons, Tile.text, hc]
  rfl

theorem newlines_openString {body : List Char}
    (h : Tiling text (before ++ openString body :: after)) :
    newlines (before ++ [openString body]) = text.count '\n' := by
  obtain ⟨rest, hs, ht⟩ := h.of_append
  obtain rfl := hs.openString_rest
  obtain rfl : after = [] := by rw [ht.eq_all, all]
  exact h.newlines_eq

end Given

end Tile

namespace Scan

open Tile

/-- The line of a token is one more than the newlines up to its end, that of a stray character one
more than those before it, and an open string ends on the last line. -/
theorem scan_lines (source : String) :
    (∃ tokens, (ofSource source).tokens =
        tokens ++ [Token.eof (1 + source.toList.count '\n')] ∧
      ∀ (i : Nat) (token : Token), tokens[i]? = some token → ∃ before t after,
        Tiling source.toList (before ++ t :: after) ∧ (before.filter isToken).length = i ∧
          t.Gives token.line token ∧ token.line = 1 + newlines (before ++ [t])) ∧
      (∀ (i : Nat) (d : Diagnostic), (ofSource source).diagnostics[i]? = some d →
        ∃ before t after, Tiling source.toList (before ++ t :: after) ∧
          (before.filter isFault).length = i ∧
          ((∃ c, t = stray c ∧ d = .unexpectedCharacter c (1 + newlines before)) ∨
            ∃ body, t = openString body ∧
              d = .unterminatedString (1 + source.toList.count '\n'))) ∧
      (ofSource source).tokens.Pairwise (·.line ≤ ·.line) ∧
      (ofSource source).diagnostics.Pairwise (·.line ≤ ·.line) := by
  have htiling := tiling_all source.toList
  have hend : lastLine 1 (all source.toList) = 1 + source.toList.count '\n' := htiling.lastLine_eq 1
  have hsorted := pairwise_placed 1 (all source.toList)
  refine ⟨⟨_, by rw [← hend]; rfl, fun i token h => ?_⟩, fun i d h => ?_, ?_, ?_⟩
  · obtain ⟨before, t, after, hts, hi, ht⟩ := exists_of_placed isSome_token? h
    rw [hts] at htiling
    obtain ⟨rest, hs, -⟩ := htiling.of_append
    rw [htiling.lastLine_upTo] at ht
    have hg := hs.gives ht
    exact ⟨before, t, after, htiling, hi, by rwa [hg.line_eq], hg.line_eq⟩
  · obtain ⟨before, t, after, hts, hi, ht⟩ := exists_of_placed isSome_diagnostic? h
    rw [hts] at htiling
    rw [htiling.lastLine_upTo] at ht
    refine ⟨before, t, after, htiling, hi, ?_⟩
    cases blames_of_diagnostic? ht with
    | stray c => exact .inl ⟨c, rfl, by rw [newlines_stray htiling]⟩
    | openString body => exact .inr ⟨body, rfl, by rw [newlines_openString htiling]⟩
  · refine List.pairwise_append.2 ⟨hsorted.filterMap _ fun q q' hle t ht t' ht' => ?_,
      List.pairwise_singleton _ _, fun t ht t' ht' => ?_⟩
    · rw [line_of_token? ht, line_of_token? ht']
      exact hle
    · obtain ⟨q, hq, ht⟩ := List.mem_filterMap.1 ht
      rw [line_of_token? ht, List.mem_singleton.1 ht']
      exact (placed_bounds hq).2
  · refine hsorted.filterMap _ fun q q' hle d hd d' hd' => ?_
    rw [(blames_of_diagnostic? hd).line_eq, (blames_of_diagnostic? hd').line_eq]
    exact hle

end Scan

end Lox
