import Lox.Proofs.Onward

/-!
# Sources joined at a line end

A newline ends every tile but a string that is still open, and no tile that ends before it would
have gone on otherwise (`Tile.next_append_newline`). So the tiles of two texts with a newline
between them are those of the first, the newline and those of the second, and the second gives what
it gives by itself, so many lines further down (`Scan.scan_joined`).
-/

namespace Lox

/-- The same token some lines further down. -/
def Token.lower (lines : Nat) (t : Token) : Token := { t with line := t.line + lines }

/-- The same diagnostic some lines further down. -/
def Diagnostic.lower (lines : Nat) : Diagnostic → Diagnostic
  | unexpectedCharacter c line => unexpectedCharacter c (line + lines)
  | unterminatedString line => unterminatedString (line + lines)
  | parse e => parse { e with token := e.token.lower lines }

namespace Tile

/-- Whether a tile runs to the end of the text because no quote closes it. -/
def isOpen : Tile → Bool
  | openString _ => true
  | _ => false

section Newline

variable {p : Char → Bool} {c : Char} {text : List Char} (more : List Char)

/-- What is behind the end of a cut does not change it. -/
theorem cut_append_right {rest : List Char}
    (h : (cut p text).2 = [] → ∀ d ∈ rest.head?, p d = false) :
    cut p (text ++ rest) = ((cut p text).1, (cut p text).2 ++ rest) := by
  have hall : ∀ d ∈ (cut p text).1, p d := all_cut
  have hstop : ∀ d ∈ (cut p text).2.head?, p d = false := head_cut
  have hhead : ∀ d ∈ ((cut p text).2 ++ rest).head?, p d = false := by
    rcases hc : (cut p text).2 with _ | ⟨x, xs⟩
    · exact h hc
    · rintro _ ⟨rfl⟩
      exact hstop x (by simp [hc])
  have hcut := cut_append_of_all hall hhead
  rwa [← List.append_assoc, cut_append] at hcut

theorem cut_append_newline (hp : p '\n' = false) (text : List Char) :
    cut p (text ++ '\n' :: more) = ((cut p text).1, (cut p text).2 ++ '\n' :: more) :=
  cut_append_right fun _ => by simp [hp]

theorem fraction_append_newline (text : List Char) :
    fraction (text ++ '\n' :: more) = ((fraction text).1, (fraction text).2 ++ '\n' :: more) := by
  rcases text with _ | ⟨c, _ | ⟨d, rest⟩⟩
  · simp [fraction]
  · by_cases hc : c = '.'
    · simp [fraction, hc]
    · simp [fraction, hc]
  · by_cases hc : c = '.'
    · by_cases hd : d.isDigit
      · simp [fraction, hc, hd, cut_append_newline]
      · simp [fraction, hc, hd]
    · simp [fraction, hc]

theorem nextString_append {rest : List Char} (h : ¬ (nextString text).1.isOpen) :
    nextString (text ++ rest) = ((nextString text).1, (nextString text).2 ++ rest) := by
  unfold nextString at h ⊢
  rcases hc : cut (· != '"') text with ⟨body, _ | ⟨q, qs⟩⟩
  · simp [hc, isOpen] at h
  · rw [cut_append_right (by simp [hc]), hc]
    simp

theorem nextNumber_append_newline (d : Char) (text : List Char) :
    nextNumber d (text ++ '\n' :: more) =
      ((nextNumber d text).1, (nextNumber d text).2 ++ '\n' :: more) := by
  simp [nextNumber, cut_append_newline, fraction_append_newline]

theorem nextMark_append_newline (c : Char) (text : List Char) :
    nextMark c (text ++ '\n' :: more) =
      ((nextMark c text).1, (nextMark c text).2 ++ '\n' :: more) := by
  rcases text with _ | ⟨d, ds⟩
  · have hnone : Mark.ofText? (String.ofList [c, '\n']) = none := by
      by_contra hsome
      obtain ⟨m, hm⟩ := Option.ne_none_iff_exists'.1 hsome
      have hno : '\n' ∉ m.text.toList := newline_notMem (IsSign.not_isSpace (.inr ⟨m, rfl⟩))
      simp [Mark.text_of_ofText? hm] at hno
    unfold nextMark
    simp only [List.nil_append, List.head?_cons, Option.bind_some, hnone, List.head?_nil,
      Option.bind_none]
    split <;> simp
  · unfold nextMark
    simp only [List.cons_append, List.head?_cons, Option.bind_some, List.tail_cons]
    split
    · simp
    · split <;> simp

/-- A newline behind a text is behind its first tile. -/
theorem next_append_newline (h : ¬ (next c text).1.isOpen) :
    next c (text ++ '\n' :: more) = ((next c text).1, (next c text).2 ++ '\n' :: more) := by
  have hhead : (text ++ '\n' :: more).head? = some '/' ↔ text.head? = some '/' := by
    cases text <;> simp
  unfold next at h ⊢
  simp only [hhead]
  split_ifs at h ⊢ with hblank hnewline hcomment hquote hdigit hword
  · simp [cut_append_newline _ (show isBlank '\n' = false from rfl)]
  · simp
  · obtain ⟨-, hslash⟩ := hcomment
    obtain ⟨ts, rfl⟩ := List.head?_eq_some_iff.1 hslash
    simp [cut_append_newline]
  · exact nextString_append h
  · exact nextNumber_append_newline more c text
  · simp [cut_append_newline _ (show continuesWord '\n' = false from rfl)]
  · exact nextMark_append_newline more c text

theorem all_newline : all ('\n' :: more) = newline :: all more := by
  rw [all]
  rfl

/-- Where nothing is left open, a newline parts the tiles before it from those behind it. -/
theorem all_append_newline (h : ∀ t ∈ all text, ¬ t.isOpen) :
    all (text ++ '\n' :: more) = all text ++ newline :: all more := by
  fun_induction all text with
  | case1 => exact all_newline more
  | case2 c text ih =>
    obtain ⟨hc, htext⟩ := List.forall_mem_cons.1 h
    rw [List.cons_append, all, next_append_newline more hc, ih htext, List.cons_append]

end Newline

section Placed

variable {line lines : Nat}

theorem placed_append (ts us : List Tile) :
    placed line (ts ++ us) = placed line ts ++ placed (lastLine line ts) us := by
  induction ts generalizing line with
  | nil => rfl
  | cons t ts ih =>
    rw [List.cons_append, placed, ih]
    rfl

theorem placed_add (ts : List Tile) :
    placed (line + lines) ts = (placed line ts).map fun p => (p.1 + lines, p.2) := by
  induction ts generalizing line with
  | nil => rfl
  | cons t ts ih => simp only [placed, endLine_add, ih, List.map_cons]

theorem exists_mem_placed (line : Nat) {t : Tile} {ts : List Tile} (h : t ∈ ts) :
    ∃ last, (last, t) ∈ placed line ts := by
  induction ts generalizing line with
  | nil => cases h
  | cons u us ih =>
    rcases List.mem_cons.1 h with rfl | h
    · exact ⟨_, List.mem_cons_self⟩
    · obtain ⟨last, hlast⟩ := ih (u.endLine line) h
      exact ⟨last, List.mem_cons_of_mem _ hlast⟩

theorem token?_add (t : Tile) :
    t.token? (line + lines) = (t.token? line).map (Token.lower lines) := by
  cases t <;> rfl

theorem diagnostic?_add (t : Tile) :
    t.diagnostic? (line + lines) = (t.diagnostic? line).map (Diagnostic.lower lines) := by
  cases t <;> rfl

end Placed

end Tile

namespace Scan

open Tile

section Joined

variable {line lines : Nat} {text more : List Char}

theorem onward_add (line lines : Nat) (text : List Char) :
    onward (line + lines) text = ⟨(onward line text).tokens.map (Token.lower lines),
      (onward line text).diagnostics.map (Diagnostic.lower lines)⟩ := by
  simp only [onward, placed_add, List.filterMap_map, List.map_filterMap]
  congr 1
  · exact congrArg (List.filterMap · _) (funext fun p => token?_add p.2)
  · exact congrArg (List.filterMap · _) (funext fun p => diagnostic?_add p.2)

theorem onward_append_newline (h : ∀ t ∈ all text, ¬ t.isOpen) :
    onward line (text ++ '\n' :: more) =
      ⟨(onward line text).tokens ++ (onward (line + (1 + text.count '\n')) more).tokens,
        (onward line text).diagnostics ++
          (onward (line + (1 + text.count '\n')) more).diagnostics⟩ := by
  have hline : newline.endLine (lastLine line (all text)) = line + (1 + text.count '\n') := by
    rw [(tiling_all text).lastLine_eq, endLine]
    omega
  simp only [onward, all_append_newline more h, placed_append, placed, hline,
    List.filterMap_append]
  rfl

theorem exists_unterminatedString {t : Tile} (ht : t ∈ all text) (hopen : t.isOpen) :
    ∃ line, .unterminatedString line ∈ (ofText text).diagnostics := by
  obtain ⟨line, hline⟩ := exists_mem_placed 1 ht
  refine ⟨line, List.mem_filterMap.2 ⟨(line, t), hline, ?_⟩⟩
  cases t with
  | openString body => rfl
  | _ => cases hopen

end Joined

/-- Two sources with a newline between them scan as each by itself, the second on the lines behind
the first, unless the first leaves a string open. -/
theorem scan_joined {a : String} (b : String)
    (h : ∀ line, .unterminatedString line ∉ (ofSource a).diagnostics) :
    let lines := 1 + a.toList.count '\n'
    let joined := ofSource (a ++ "\n" ++ b)
    (∃ tokens, (ofSource a).tokens = tokens ++ [Token.eof lines] ∧ (∀ t ∈ tokens, !t.isEof) ∧
        joined.tokens = tokens ++ (ofSource b).tokens.map (Token.lower lines)) ∧
      joined.diagnostics =
        (ofSource a).diagnostics ++ (ofSource b).diagnostics.map (Diagnostic.lower lines) := by
  intro lines joined
  have hopen : ∀ t ∈ all a.toList, ¬ t.isOpen := fun t ht ho => by
    obtain ⟨line, hline⟩ := exists_unterminatedString ht ho
    exact h line hline
  have htext : (a ++ "\n" ++ b).toList = a.toList ++ '\n' :: b.toList := by
    simp
  have hjoined : joined = ofText (a.toList ++ '\n' :: b.toList) := congrArg ofText htext
  have hon := onward_add 1 lines b.toList
  have hcount :
      1 + (a.toList ++ '\n' :: b.toList).count '\n' = 1 + b.toList.count '\n' + lines := by
    simp only [List.count_append, List.count_cons_self, lines]
    omega
  rw [hjoined, ofText_eq_onward, onward_append_newline hopen, hon, hcount]
  refine ⟨⟨_, tokens_ofText _, fun t ht => ?_, ?_⟩, rfl⟩
  · obtain ⟨p, -, hp⟩ := List.mem_filterMap.1 ht
    exact not_isEof_token? hp
  · rw [ofSource, ofText_eq_onward, List.map_append, List.append_assoc]
    rfl

/-- Neither a dot behind digits nor a quote in a comment reaches over the newline, and a string that
the second source leaves open begins there. -/
theorem scan_joined_comment :
    (∀ line, .unterminatedString line ∉ (ofSource "-\n1.// \"").diagnostics) ∧
      (ofSource ("-\n1.// \"" ++ "\n" ++ "5=# \"=")).tokens.map (fun t => (t.lexeme, t.line)) =
        [("-", 1), ("1", 2), (".", 2), ("5", 3), ("=", 3), ("", 3)] ∧
      (ofSource ("-\n1.// \"" ++ "\n" ++ "5=# \"=")).diagnostics =
        [.unexpectedCharacter '#' 3, .unterminatedString 3] := by
  have hnone : (ofSource "-\n1.// \"").diagnostics = [] := by decide +kernel
  have h : ∀ line, .unterminatedString line ∉ (ofSource "-\n1.// \"").diagnostics := by
    simp [hnone]
  obtain ⟨⟨tokens, htokens, -, hjoined⟩, hdiagnostics⟩ := scan_joined "5=# \"=" h
  have hlexemes : (tokens ++ [Token.eof 2]).map (fun t => (t.lexeme, t.line)) =
      [("-", 1), ("1", 2), (".", 2)] ++ [("", 2)] := by
    have heof : tokens ++ [Token.eof 2] = (ofSource "-\n1.// \"").tokens := htokens.symm
    rw [heof]
    decide +kernel
  rw [List.map_append] at hlexemes
  refine ⟨h, ?_, ?_⟩
  · rw [hjoined, List.map_append, List.append_cancel_right hlexemes, List.map_map]
    decide +kernel
  · rw [hdiagnostics, hnone]
    decide +kernel

end Scan

end Lox
