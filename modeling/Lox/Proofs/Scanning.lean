import Lox.Proofs.Newlines
import Mathlib.Data.List.Forall2
import Mathlib.Data.List.TakeDrop

/-!
# What a scan gives

`Tile.Reads` says of which kind and literal a tile's token is; a number always has a value, and a
word is a keyword exactly if a keyword is written so. `Tile.Blames` says what is wrong with a tile
that is no token. A scan gives one token or diagnostic for every such tile of the text's one tiling,
in order, and the end of input last (`Scan.scan_tiling`).
-/

namespace Lox

section Numerals

variable {text : List Char}

theorem Numeral.isSome_ofText? (h : (decimalOfText? text).isSome) : (ofText? text).isSome := by
  unfold ofText?
  simp only []
  split_ifs
  · rfl
  · rfl
  · simpa using h

theorem Tile.span_digits {digits : List Char} (h : ∀ c ∈ digits, c.isDigit) (rest : List Char)
    (hr : ∀ c ∈ rest.head?, c.isDigit = false) :
    (digits ++ rest).span Char.isDigit = (digits, rest) := by
  rw [List.span_eq_takeWhile_dropWhile]
  exact cut_append_of_all h hr

theorem Numeral.isSome_decimalOfText? (h : Tile.IsNumber text) : (decimalOfText? text).isSome := by
  obtain ⟨whole, hw, rfl | ⟨part, hp, rfl⟩⟩ := h
  · have hspan := Tile.span_digits hw.2 [] (by simp)
    rw [List.append_nil] at hspan
    simp only [decimalOfText?, hspan, fraction, List.append_nil, if_neg hw.1]
    rfl
  · have hspan := Tile.span_digits hw.2 ('.' :: part) (by simp)
    have hspan' := Tile.span_digits hp.2 [] (by simp)
    rw [List.append_nil] at hspan'
    have hne : whole ++ part ≠ [] := by simp [hw.1]
    simp only [decimalOfText?, hspan, fraction, hspan', if_neg hne]
    rfl

theorem Number.isSome_ofText? (h : Tile.IsNumber text) : (ofText? text).isSome := by
  have hsome := Numeral.isSome_ofText? (Numeral.isSome_decimalOfText? h)
  unfold ofText?
  split
  · exact absurd h.isDigit_head (by decide)
  · exact absurd h.isDigit_head (by decide)
  · simpa using hsome

end Numerals

namespace Tile

def isToken : Tile → Bool
  | string _ | number _ | word _ | mark _ => true
  | _ => false

def isFault : Tile → Bool
  | stray _ | openString _ => true
  | _ => false

/-- The kind and the literal of a tile's token. -/
inductive Reads : Tile → Kind → Option Literal → Prop
  | string (body : List Char) :
      Reads (string body) .string (some (.string (String.ofList body)))
  | number {digits : List Char} {n : Number} : Number.ofText? digits = some n →
      Reads (number digits) .number (some (.number n))
  | keyword (k : Keyword) : Reads (word k.text.toList) (.keyword k) none
  | identifier {letters : List Char} : (∀ k : Keyword, k.text.toList ≠ letters) →
      Reads (word letters) .identifier none
  | mark (m : Mark) : Reads (mark m) (.mark m) none

/-- A token for a tile that ends on `line`. -/
structure Gives (line : Nat) (t : Tile) (token : Token) : Prop where
  reads : t.Reads token.kind token.literal
  lexeme_eq : token.lexeme.toList = t.text
  line_eq : token.line = line

/-- A diagnostic for a tile that ends on `line`. -/
inductive Blames (line : Nat) : Tile → Diagnostic → Prop
  | stray (c : Char) : Blames line (stray c) (.unexpectedCharacter c line)
  | openString (body : List Char) : Blames line (openString body) (.unterminatedString line)

variable {line : Nat} {t : Tile} {rest : List Char}

theorem reads_word (letters : List Char) :
    (word letters).Reads (wordKind (String.ofList letters)) none := by
  rw [wordKind]
  rcases hk : Keyword.ofText? (String.ofList letters) with _ | k
  · refine .identifier fun k he => ?_
    rw [← he, String.ofList_toList, Keyword.ofText?_text] at hk
    cases hk
  · have he := congrArg String.toList (Keyword.text_of_ofText? hk)
    rw [String.toList_ofList] at he
    subst he
    exact .keyword k

theorem exists_token (h : t.Stands rest) (ht : t.isToken) :
    ∃ token, t.token? line = some token ∧ t.Gives line token := by
  cases t with
  | string body => exact ⟨_, rfl, .string body, String.toList_ofList, rfl⟩
  | number digits =>
    have hnum : IsNumber digits := by
      rcases h with h | ⟨c, hc, -⟩
      · exact h.1
      · cases hc
    obtain ⟨n, hn⟩ := Option.isSome_iff_exists.1 (Number.isSome_ofText? hnum)
    refine ⟨_, rfl, ?_, String.toList_ofList, rfl⟩
    show Reads _ _ ((Number.ofText? digits).map .number)
    rw [hn]
    exact .number hn
  | word letters => exact ⟨_, rfl, reads_word letters, String.toList_ofList, rfl⟩
  | mark m => exact ⟨_, rfl, .mark m, String.toList_ofList, rfl⟩
  | blanks | newline | comment | openString | stray => cases ht

theorem token?_eq_none (ht : ¬ t.isToken) : t.token? line = none := by
  cases t <;> first | rfl | exact absurd rfl ht

theorem exists_diagnostic (ht : t.isFault) :
    ∃ d, t.diagnostic? line = some d ∧ t.Blames line d := by
  cases t with
  | stray c => exact ⟨_, rfl, .stray c⟩
  | openString body => exact ⟨_, rfl, .openString body⟩
  | _ => cases ht

theorem diagnostic?_eq_none (ht : ¬ t.isFault) : t.diagnostic? line = none := by
  cases t <;> first | rfl | exact absurd rfl ht

theorem not_isEof_token? {token : Token} (h : t.token? line = some token) : !token.isEof := by
  cases t with
  | string | number | mark =>
    cases h
    rfl
  | word letters =>
    cases h
    show !(wordKind (String.ofList letters) == .eof)
    rw [wordKind]
    cases Keyword.ofText? (String.ofList letters) <;> rfl
  | blanks | newline | comment | openString | stray => cases h

theorem mem_placed {line : Nat} {ts : List Tile} {p : Nat × Tile} (h : p ∈ placed line ts) :
    p.2 ∈ ts := by
  induction ts generalizing line with
  | nil => cases h
  | cons t ts ih =>
    rcases List.mem_cons.1 h with rfl | h
    · exact List.mem_cons_self
    · exact List.mem_cons_of_mem _ (ih h)

end Tile

theorem forall₂_filterMap {α β : Type} {R : α → β → Prop} {p : α → Bool} {f : α → Option β}
    {as : List α} (hp : ∀ a ∈ as, p a → ∃ b, f a = some b ∧ R a b)
    (hn : ∀ a, ¬ p a → f a = none) : List.Forall₂ R (as.filter p) (as.filterMap f) := by
  induction as with
  | nil => exact .nil
  | cons a as ih =>
    have ih := ih fun a ha => hp a (List.mem_cons_of_mem _ ha)
    by_cases ha : p a
    · obtain ⟨b, hb, hr⟩ := hp a List.mem_cons_self ha
      rw [List.filter_cons_of_pos ha, List.filterMap_cons_some hb]
      exact .cons hr ih
    · rw [List.filter_cons_of_neg ha, List.filterMap_cons_none (hn a ha)]
      exact ih

namespace Scan

/-- Every token but the last is that of a tile which stands in the source. -/
theorem exists_gives {source : String} {t : Token} (h : t ∈ (ofSource source).tokens)
    (hk : t.kind ≠ .eof) : ∃ line tile rest, Tile.Stands tile rest ∧ tile.Gives line t := by
  rcases List.mem_append.1 h with h | h
  · obtain ⟨⟨line, tile⟩, hp, hgives⟩ := List.mem_filterMap.1 h
    have htiling : Tile.Tiling source.toList (Tile.all source.toList) := Tile.tiling_iff.2 rfl
    obtain ⟨rest, hs⟩ := htiling.stands (Tile.mem_placed hp)
    have hclass : tile.isToken := by
      by_contra hne
      exact Option.some_ne_none t (hgives.symm.trans (Tile.token?_eq_none hne))
    obtain ⟨token, htoken, hg⟩ : ∃ token, tile.token? line = some token ∧ tile.Gives line token :=
      Tile.exists_token hs hclass
    obtain rfl := Option.some.inj (htoken.symm.trans hgives)
    exact ⟨line, tile, rest, hs, hg⟩
  · rw [List.mem_singleton.1 h] at hk
    exact absurd rfl hk

/-- A source has one tiling, and its scan gives what the tiles of it give. -/
theorem scan_tiling (source : String) :
    (∃! tiles, Tile.Tiling source.toList tiles) ∧
      ∀ tiles, Tile.Tiling source.toList tiles → ∃ tokens,
        (ofSource source).tokens = tokens ++ [Token.eof (1 + source.toList.count '\n')] ∧
          (∀ t ∈ tokens, !t.isEof) ∧
          List.Forall₂ (fun p t => p.2.Gives p.1 t)
            ((Tile.placed 1 tiles).filter (·.2.isToken)) tokens ∧
          List.Forall₂ (fun p d => p.2.Blames p.1 d)
            ((Tile.placed 1 tiles).filter (·.2.isFault)) (ofSource source).diagnostics := by
  refine ⟨⟨_, Tile.tiling_iff.2 rfl, fun ts h => Tile.tiling_iff.1 h⟩, fun tiles h => ?_⟩
  have hgive : List.Forall₂ (fun p t => p.2.Gives p.1 t)
      ((Tile.placed 1 tiles).filter (·.2.isToken))
      ((Tile.placed 1 tiles).filterMap fun p => p.2.token? p.1) := by
    refine forall₂_filterMap (fun p hp ht => ?_) fun p ht => Tile.token?_eq_none ht
    obtain ⟨rest, hs⟩ := h.stands (Tile.mem_placed hp)
    exact Tile.exists_token hs ht
  have hblame : List.Forall₂ (fun p d => p.2.Blames p.1 d)
      ((Tile.placed 1 tiles).filter (·.2.isFault))
      ((Tile.placed 1 tiles).filterMap fun p => p.2.diagnostic? p.1) :=
    forall₂_filterMap (fun p _ ht => Tile.exists_diagnostic ht) fun p ht =>
      Tile.diagnostic?_eq_none ht
  have hline : Tile.lastLine 1 tiles = 1 + source.toList.count '\n' := h.lastLine_eq 1
  obtain rfl := Tile.tiling_iff.1 h
  refine ⟨_, by rw [← hline]; rfl, fun t ht => ?_, hgive, hblame⟩
  obtain ⟨p, -, hp⟩ := List.mem_filterMap.1 ht
  exact Tile.not_isEof_token? hp

end Scan

end Lox
