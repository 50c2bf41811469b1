import Lox.Proofs.Onward

/-!
# Tokens with space between them

A separator begins with a blank or a newline and goes on with more of them and with whole comments.
No number, word or mark can go on with a separator (`Tile.IsLexeme.fits`), and a separator gives
neither tokens nor diagnostics, however its blanks run together with those around it
(`Scan.onward_spacing`). So the texts of tokens with separators between them scan to these tokens,
and the tokens of a source are found again in their lexemes with single spaces between them
(`Scan.scan_spaced`).
-/

namespace Lox

/-- What a token says apart from its line. -/
def Token.content (t : Token) : Kind × String × Option Literal := (t.kind, t.lexeme, t.literal)

namespace Tile

/-- Blanks, newlines and comments up to a newline. -/
inductive Spacing : List Char → Prop
  | nil : Spacing []
  | space {c : Char} {text : List Char} : isSpace c → Spacing text → Spacing (c :: text)
  | comment {body text : List Char} : '\n' ∉ body → Spacing text →
      Spacing ((comment body).text ++ '\n' :: text)

structure IsSeparator (text : List Char) : Prop where
  spacing : Spacing text
  begins : ∃ c ∈ text.head?, isSpace c

/-- What is a token wherever it is set apart from what follows. -/
def IsLexeme : Tile → Prop
  | string body => '"' ∉ body
  | number digits => IsNumber digits
  | word letters => IsWord letters
  | mark _ => True
  | _ => False

/-- Tokens, each before a separator; the last may do without. -/
inductive Spaced : List (Tile × List Char) → Prop
  | nil : Spaced []
  | last {t : Tile} : t.IsLexeme → Spaced [(t, [])]
  | cons {t : Tile} {sep : List Char} {pieces : List (Tile × List Char)} : t.IsLexeme →
      IsSeparator sep → Spaced pieces → Spaced ((t, sep) :: pieces)

def written (pieces : List (Tile × List Char)) : List Char :=
  pieces.flatMap fun p => p.1.text ++ p.2

theorem written_cons (t : Tile) (sep : List Char) (pieces : List (Tile × List Char)) :
    written ((t, sep) :: pieces) = t.text ++ (sep ++ written pieces) := by
  rw [written, List.flatMap_cons, List.append_assoc, written]

section Apart

variable {c : Char} {p : List Char → Prop} {text rest : List Char} {t : Tile}

theorem count_comment {body : List Char} (h : '\n' ∉ body) : (comment body).text.count '\n' = 0 :=
  List.count_eq_zero.2 (by simpa [Tile.text] using h)

/-- A text is as long as it can be before a space, if the class has no spaces in it. -/
theorem longest_of_space (h : p text) (hr : ∀ c ∈ rest.head?, isSpace c)
    (hp : ∀ text', p text' → ∀ c ∈ text', ¬ isSpace c) : Longest p text rest := by
  refine ⟨h, fun more hne hm hmore => ?_⟩
  obtain ⟨x, xs, rfl⟩ := List.exists_cons_of_ne_nil hne
  exact hp _ hmore x (by simp) (hr x (head_of_begins rfl hm))

theorem IsLexeme.fits (h : t.IsLexeme) (hr : ∀ c ∈ rest.head?, isSpace c) : t.Fits rest := by
  cases t with
  | string body => exact h
  | number digits => exact longest_of_space h hr fun _ => IsNumber.not_isSpace
  | word letters => exact longest_of_space h hr fun _ => IsWord.not_isSpace
  | mark m => exact longest_of_space (.inr ⟨m, rfl⟩) hr fun _ => IsSign.not_isSpace
  | blanks | newline | comment | openString | stray => exact h.elim

theorem IsLexeme.endLine_eq (h : t.IsLexeme) (line : Nat) :
    t.endLine line = line + t.text.count '\n' := by
  have hs : t.Stands [] := .inl (h.fits (by simp))
  exact hs.endLine_eq line

theorem IsLexeme.isToken (h : t.IsLexeme) : t.isToken := by
  cases t with
  | string | number | word | mark => rfl
  | blanks | newline | comment | openString | stray => exact h.elim

theorem IsLexeme.not_isFault (h : t.IsLexeme) : ¬ t.isFault := by
  cases t with
  | string | number | word | mark => exact Bool.false_ne_true
  | blanks | newline | comment | openString | stray => exact h.elim

theorem isLexeme_of_stands (h : t.Stands rest) (ht : t.isToken) : t.IsLexeme := by
  rcases h with h | ⟨c, rfl, -⟩
  · cases t with
    | string body => exact h
    | number digits | word letters => exact h.1
    | mark m => trivial
    | blanks | newline | comment | openString | stray => cases ht
  · cases ht

end Apart

theorem Spaced.uncons {t : Tile} {sep : List Char} {pieces : List (Tile × List Char)}
    (h : Spaced ((t, sep) :: pieces)) : t.IsLexeme ∧ Spacing sep ∧
    (∀ c ∈ (sep ++ written pieces).head?, isSpace c) ∧ Spaced pieces := by
  cases h with
  | last ht => exact ⟨ht, .nil, by simp [written], .nil⟩
  | cons ht hsep h =>
    obtain ⟨c, hc, hspace⟩ := hsep.begins
    obtain ⟨cs, rfl⟩ := List.head?_eq_some_iff.1 hc
    refine ⟨ht, hsep.spacing, ?_, h⟩
    rintro d ⟨rfl⟩
    exact hspace

theorem Spaced.isLexeme {pieces : List (Tile × List Char)} (h : Spaced pieces)
    {p : Tile × List Char} (hp : p ∈ pieces) : p.1.IsLexeme := by
  induction h with
  | nil => cases hp
  | last ht =>
    obtain rfl := List.mem_singleton.1 hp
    exact ht
  | cons ht _ _ ih =>
    rcases List.mem_cons.1 hp with rfl | hp
    · exact ht
    · exact ih hp

section Again

variable {line : Nat} {t : Tile}

theorem content_token? (t : Tile) (line line' : Nat) :
    (t.token? line).map Token.content = (t.token? line').map Token.content := by
  cases t <;> rfl

/-- Tiles, each before a single space. -/
def apart (tiles : List Tile) : List (Tile × List Char) := tiles.map fun t => (t, [' '])

theorem apart_cons (t : Tile) (tiles : List Tile) :
    apart (t :: tiles) = (t, [' ']) :: apart tiles := rfl

theorem lexeme_token? {token : Token} (h : t.token? line = some token) :
    token.lexeme.toList = t.text := by
  cases t with
  | string | number | word | mark =>
    cases h
    exact String.toList_ofList
  | blanks | newline | comment | openString | stray => cases h

theorem apart_of_placed (line : Nat) (tiles : List Tile) :
    let tokens := (placed line tiles).filterMap fun (line, t) => t.token? line
    tokens.flatMap (fun token => token.lexeme.toList ++ [' ']) =
        written (apart (tiles.filter isToken)) ∧
      tokens.map Token.content =
        (apart (tiles.filter isToken)).filterMap fun p => (p.1.token? 1).map Token.content := by
  induction tiles generalizing line with
  | nil => exact ⟨rfl, rfl⟩
  | cons t tiles ih =>
    obtain ⟨hlexemes, hcontents⟩ := ih (t.endLine line)
    have htoken := isSome_token? (t.endLine line, t)
    simp only [filterMap_placed_cons]
    rcases ht : t.token? (t.endLine line) with _ | token <;> rw [ht] at htoken
    · rw [List.filter_cons_of_neg (by simp [← htoken])]
      exact ⟨hlexemes, hcontents⟩
    · rw [List.filter_cons_of_pos (by simp [← htoken]), apart_cons, written_cons,
        List.filterMap_cons, content_token? t 1 (t.endLine line), ht, Option.map_some,
        Option.toList_some, List.singleton_append, List.flatMap_cons, List.map_cons, hlexemes,
        hcontents, lexeme_token? ht, List.append_assoc]
      exact ⟨rfl, rfl⟩

theorem isSeparator_space : IsSeparator [' '] :=
  ⟨.space rfl .nil, ' ', rfl, rfl⟩

theorem spaced_apart {tiles : List Tile} (h : ∀ t ∈ tiles, t.IsLexeme) : Spaced (apart tiles) := by
  induction tiles with
  | nil => exact .nil
  | cons t tiles ih =>
    obtain ⟨ht, htiles⟩ := List.forall_mem_cons.1 h
    exact .cons ht isSeparator_space (ih htiles)

theorem Tiling.isLexeme {text : List Char} {tiles : List Tile} (h : Tiling text tiles) :
    ∀ t ∈ tiles.filter isToken, t.IsLexeme := by
  intro t ht
  obtain ⟨hmem, htoken⟩ := List.mem_filter.1 ht
  obtain ⟨rest, hs⟩ := h.stands hmem
  exact isLexeme_of_stands hs htoken

end Again

end Tile

namespace Scan

open Tile

section Spaced

variable {line : Nat} {t : Tile} {sep rest : List Char} {pieces : List (Tile × List Char)}

theorem onward_lexeme (h : t.IsLexeme) (hr : ∀ c ∈ rest.head?, isSpace c) :
    ∃ token, t.token? (t.endLine line) = some token ∧ t.Gives (t.endLine line) token ∧
      onward line (t.text ++ rest) = ⟨token :: (onward (t.endLine line) rest).tokens,
        (onward (t.endLine line) rest).diagnostics⟩ := by
  have hs : t.Stands rest := .inl (h.fits hr)
  obtain ⟨token, ht, hg⟩ : ∃ token, t.token? (t.endLine line) = some token ∧
      t.Gives (t.endLine line) token := exists_token hs h.isToken
  refine ⟨token, ht, hg, ?_⟩
  rw [onward_of_stands hs, ht, diagnostic?_eq_none h.not_isFault]
  rfl

theorem onward_spacing {space : List Char} (h : Spacing space) (line : Nat) (rest : List Char) :
    onward line (space ++ rest) = onward (line + space.count '\n') rest := by
  induction h generalizing line with
  | nil => rfl
  | @space c text hc _ ih =>
    rcases Bool.or_eq_true_iff.1 hc with hb | hn
    · have hne : ¬ (c == '\n') := by
        simp only [beq_iff_eq]
        rintro rfl
        cases hb
      rw [List.cons_append, onward_blank hb, ih, List.count_cons, if_neg hne, Nat.add_zero]
    · obtain rfl := beq_iff_eq.1 hn
      rw [List.cons_append, onward_newline, ih, List.count_cons_self]
      congr 1
      omega
  | @comment body text hb _ ih =>
    rw [List.append_assoc, List.cons_append, onward_comment hb, ih, List.count_append,
      count_comment hb, List.count_cons_self]
    congr 1
    omega

/-- The first token, and what follows its separator. -/
theorem onward_spaced_cons (h : Spaced ((t, sep) :: pieces)) (line : Nat) :
    ∃ token, t.token? (t.endLine line) = some token ∧ t.Gives (t.endLine line) token ∧
      onward line (written ((t, sep) :: pieces)) =
        ⟨token :: (onward (line + (t.text ++ sep).count '\n') (written pieces)).tokens,
          (onward (line + (t.text ++ sep).count '\n') (written pieces)).diagnostics⟩ := by
  obtain ⟨ht, hsep, hhead, -⟩ := h.uncons
  obtain ⟨token, htoken, hg, hon⟩ : ∃ token, t.token? (t.endLine line) = some token ∧
      t.Gives (t.endLine line) token ∧ onward line (t.text ++ (sep ++ written pieces)) = _ :=
    onward_lexeme ht hhead
  refine ⟨token, htoken, hg, ?_⟩
  rw [written_cons, hon, onward_spacing hsep, ht.endLine_eq, List.count_append, Nat.add_assoc]

theorem onward_spaced (h : Spaced pieces) (line : Nat) :
    (onward line (written pieces)).diagnostics = [] ∧
      (onward line (written pieces)).tokens.length = pieces.length ∧
      ∀ (i : Nat) (t : Tile) (sep : List Char), pieces[i]? = some (t, sep) →
        ∃ token last, (onward line (written pieces)).tokens[i]? = some token ∧
          last = line + (written (pieces.take i) ++ t.text).count '\n' ∧
          t.token? last = some token ∧ t.Gives last token := by
  induction pieces generalizing line with
  | nil =>
    rw [written, List.flatMap_nil, onward_nil]
    exact ⟨rfl, rfl, nofun⟩
  | cons p pieces ih =>
    obtain ⟨u, sep⟩ := p
    obtain ⟨hu, -, -, hpieces⟩ := h.uncons
    obtain ⟨token, htoken, hg, hon⟩ := onward_spaced_cons h line
    obtain ⟨hd, hlen, hall⟩ := ih hpieces (line + (u.text ++ sep).count '\n')
    rw [hon]
    refine ⟨hd, congrArg Nat.succ hlen, fun i t sep' hi => ?_⟩
    cases i with
    | zero =>
      cases hi
      exact ⟨token, _, rfl, hu.endLine_eq line, htoken, hg⟩
    | succ i =>
      obtain ⟨token', last, hi', rfl, htoken', hg'⟩ := hall i t sep' hi
      refine ⟨token', _, hi', ?_, htoken', hg'⟩
      rw [List.take_succ_cons, written_cons]
      simp only [List.count_append]
      omega

theorem content_onward (h : Spaced pieces) (line : Nat) :
    (onward line (written pieces)).tokens.map Token.content =
      pieces.filterMap fun p => (p.1.token? 1).map Token.content := by
  induction pieces generalizing line with
  | nil =>
    rw [written, List.flatMap_nil, onward_nil]
    rfl
  | cons p pieces ih =>
    obtain ⟨t, sep⟩ := p
    obtain ⟨-, -, -, hpieces⟩ := h.uncons
    obtain ⟨token, htoken, -, hon⟩ := onward_spaced_cons h line
    rw [hon, List.map_cons, ih hpieces, List.filterMap_cons, content_token? t 1 (t.endLine line),
      htoken, Option.map_some]

theorem onward_apart {tiles : List Tile} (h : ∀ t ∈ tiles, t.IsLexeme ∧ '\n' ∉ t.text)
    (line : Nat) :
    onward line (written (apart tiles)) = ⟨tiles.filterMap (token? line), []⟩ := by
  induction tiles with
  | nil => exact onward_nil
  | cons t tiles ih =>
    obtain ⟨⟨ht, hn⟩, htiles⟩ := List.forall_mem_cons.1 h
    have hsp : Spaced ((t, [' ']) :: apart tiles) :=
      .cons ht isSeparator_space (spaced_apart fun u hu => (htiles u hu).1)
    obtain ⟨token, htoken, -, hon⟩ := onward_spaced_cons hsp line
    rw [ht.endLine_eq, List.count_eq_zero.2 hn, Nat.add_zero] at htoken
    have hcount : (t.text ++ [' ']).count '\n' = 0 := List.count_eq_zero.2 (by simp [hn])
    rw [apart_cons, hon, hcount, Nat.add_zero, ih htiles, List.filterMap_cons_some htoken]

/-- Tokens with no newline in any are all on the first line. -/
theorem ofText_apart {tiles : List Tile} (h : ∀ t ∈ tiles, t.IsLexeme ∧ '\n' ∉ t.text) :
    ofText (written (apart tiles)) = ⟨tiles.filterMap (token? 1) ++ [Token.eof 1], []⟩ := by
  have hcount : (written (apart tiles)).count '\n' = 0 := by
    refine List.count_eq_zero.2 fun hm => ?_
    obtain ⟨p, hp, hm⟩ := List.mem_flatMap.1 hm
    obtain ⟨t, ht, rfl⟩ := List.mem_map.1 hp
    simp [(h t ht).2] at hm
  rw [ofText_eq_onward, onward_apart h, hcount]

end Spaced

section Again

/-- With an empty text at the end, a space comes after each of the others. -/
theorem intercalate_concat_nil (texts : List (List Char)) :
    [' '].intercalate (texts ++ [[]]) = texts.flatMap (· ++ [' ']) := by
  induction texts with
  | nil => rfl
  | cons text texts ih =>
    have hend : texts ++ [[]] ≠ [] := by simp
    obtain ⟨next, others, hne⟩ := List.exists_cons_of_ne_nil hend
    rw [List.cons_append, hne, List.intercalate_cons_cons, ← hne, ih, List.flatMap_cons]

theorem toList_intercalate_lexemes (tokens : List Token) (line : Nat) :
    (" ".intercalate ((tokens ++ [Token.eof line]).map Token.lexeme)).toList =
      tokens.flatMap fun token => token.lexeme.toList ++ [' '] := by
  have hspace : " ".toList = [' '] := rfl
  rw [String.toList_intercalate, hspace, List.map_append, List.map_append, List.map_map]
  exact (intercalate_concat_nil _).trans (List.flatMap_map ..)

end Again

theorem ofText_lexeme {t : Tile} (h : t.IsLexeme) :
    ∃ alone, t.token? (t.endLine 1) = some alone ∧
      ofText t.text = ⟨[alone, Token.eof (1 + t.text.count '\n')], []⟩ := by
  obtain ⟨alone, ht, -, hon⟩ : ∃ alone, t.token? (t.endLine 1) = some alone ∧
      t.Gives (t.endLine 1) alone ∧ onward 1 (t.text ++ []) = _ := onward_lexeme h (by simp)
  rw [List.append_nil, onward_nil] at hon
  exact ⟨alone, ht, by rw [ofText_eq_onward, hon]; rfl⟩

/-- Texts of tokens with separators between them scan to just these tokens, each as it is on its
own but for its line; and so do the lexemes of a source with single spaces between them. -/
theorem scan_spaced {pieces : List (Tile × List Char)} (h : Spaced pieces) (source : String) :
    ((ofText (written pieces)).diagnostics = [] ∧ ∃ tokens,
        (ofText (written pieces)).tokens =
          tokens ++ [Token.eof (1 + (written pieces).count '\n')] ∧
        tokens.length = pieces.length ∧
        ∀ (i : Nat) (t : Tile) (sep : List Char), pieces[i]? = some (t, sep) →
          ∃ token alone, tokens[i]? = some token ∧ token.lexeme.toList = t.text ∧
            t.Reads token.kind token.literal ∧
            ofText t.text = ⟨[alone, Token.eof (1 + t.text.count '\n')], []⟩ ∧
            token.content = alone.content ∧
            token.line = 1 + (written (pieces.take i) ++ t.text).count '\n') ∧
      let tokens := (ofSource source).tokens
      let again := ofSource (" ".intercalate (tokens.map Token.lexeme))
      again.diagnostics = [] ∧ again.tokens.map Token.content = tokens.map Token.content := by
  constructor
  · obtain ⟨hd, hlen, hall⟩ := onward_spaced h 1
    refine ⟨hd, _, tokens_ofText _, hlen, fun i t sep hi => ?_⟩
    obtain ⟨token, last, htoken, rfl, ht, hg⟩ := hall i t sep hi
    obtain ⟨alone, halone, hscan⟩ := ofText_lexeme (h.isLexeme (List.mem_of_getElem? hi))
    have hcontent : some token.content = some alone.content := by
      rw [← Option.map_some, ← ht, content_token? t _ (t.endLine 1), halone, Option.map_some]
    exact ⟨token, alone, htoken, hg.lexeme_eq, hg.reads, hscan, Option.some.inj hcontent,
      hg.line_eq⟩
  · intro tokens again
    obtain ⟨hlexemes, hcontents⟩ := apart_of_placed 1 (all source.toList)
    have hsp := spaced_apart (tiling_all source.toList).isLexeme
    have hagain : again = ofText (written (apart ((all source.toList).filter isToken))) :=
      congrArg ofText ((toList_intercalate_lexemes _ _).trans hlexemes)
    refine ⟨?_, ?_⟩
    · rw [hagain]
      exact (onward_spaced hsp 1).1
    · have htokens : tokens.map Token.content = _ ++ [Token.eof 1].map Token.content :=
        List.map_append
      rw [hagain, ofText_eq_onward, List.map_append, content_onward hsp, ← hcontents, htokens]
      rfl

/-- A quote in a comment and a comment in a string hide nothing, and no mark joins the next. -/
theorem scan_spaced_quotes :
    let pieces : List (Tile × List Char) := [(.mark .bang, [' ']), (.mark .equal, ['\r']),
      (.mark .slash, ['\t', '/', '/', '"', '\n']), (.string ['/', '/', '\n'], ['\r', '\n']),
      (.number ['1', '.', '5'], [' ']), (.mark .dot, ['\n']), (.word ['o', 'r', 's'], [])]
    Spaced pieces ∧ (ofText (written pieces)).diagnostics = [] ∧
      (∃ token, (ofText (written pieces)).tokens[4]? = some token ∧
        token.lexeme.toList = ['1', '.', '5'] ∧ token.line = 4) ∧
      (ofSource (" ".intercalate ((ofSource "-1.a!==\"").tokens.map Token.lexeme))).diagnostics =
        [] := by
  intro pieces
  have hnumber : IsNumber ['1', '.', '5'] :=
    ⟨['1'], ⟨by decide, List.all_eq_true.1 rfl⟩,
      .inr ⟨['5'], ⟨by decide, List.all_eq_true.1 rfl⟩, rfl⟩⟩
  have hword : IsWord ['o', 'r', 's'] := ⟨'o', ['r', 's'], rfl, rfl, List.all_eq_true.1 rfl⟩
  have hstring : (string ['/', '/', '\n']).IsLexeme := by
    show '"' ∉ _
    decide
  have hcomment : Spacing ['/', '/', '"', '\n'] :=
    .comment (show '\n' ∉ ['"'] by decide) .nil
  have h : Spaced pieces :=
    .cons trivial isSeparator_space <| .cons trivial ⟨.space rfl .nil, '\r', rfl, rfl⟩ <|
      .cons trivial ⟨.space rfl hcomment, '\t', rfl, rfl⟩ <|
      .cons hstring ⟨.space rfl (.space rfl .nil), '\r', rfl, rfl⟩ <|
      .cons hnumber isSeparator_space <| .cons trivial ⟨.space rfl .nil, '\n', rfl, rfl⟩ <|
      .last hword
  obtain ⟨⟨hd, tokens, htokens, hlen, hall⟩, hagain, -⟩ := scan_spaced h "-1.a!==\""
  obtain ⟨token, -, hi, hlexeme, -, -, -, hline⟩ := hall 4 _ _ rfl
  have hi' : (ofText (written pieces)).tokens[4]? = some token := by
    rw [htokens, List.getElem?_append_left (by rw [hlen]; decide), hi]
  exact ⟨h, hd, ⟨token, hi', hlexeme, hline⟩, hagain⟩

end Scan

end Lox
