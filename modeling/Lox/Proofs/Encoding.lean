import Lox.Command.Output
import Lox.Text.Lines
import Mathlib.Data.List.Basic

/-!
# The lines of encoded text

In the bytes of a text a byte below 128 is a character of its own and never a part of another
(`Text.mem_utf8EncodeChar`). So the bytes of a text have the lines that its characters have
(`Text.map_chomp_linesFrom`), and every one of them is the bytes of a text again. Bytes that are not
those of a text have a first line that is not, behind lines that are (`Text.exists_breaksAt`).
-/

namespace Lox

namespace Text

/-- The bytes of characters. -/
def encode (text : List Char) : List UInt8 := text.flatMap String.utf8EncodeChar

/-- A line without a carriage return at its end. -/
def dropReturn (line : List Char) : List Char :=
  if line.getLast? = some '\r' then line.dropLast else line

/-- The lines of a text, where `line` stands behind the last newline. The newlines are not among
them, nor is a carriage return before a newline, and the last line need not have a newline. -/
def linesFrom (line : List Char) : List Char → List (List Char)
  | [] => if line = [] then [] else [line]
  | c :: text =>
    if c = '\n' then dropReturn line :: linesFrom [] text else linesFrom (line ++ [c]) text

def linesOf (text : String) : List String := (linesFrom [] text.toList).map String.ofList

example : linesOf "1\r\n\n-\r" = ["1", "", "-\r"] := by decide

/-- Whether bytes before `rest` go up to the next newline, or else to the end. -/
structure IsLine (line rest : List UInt8) : Prop where
  ne_nil : line ≠ []
  newline_not_mem : newline ∉ line.dropLast
  ends : line.getLast? = some newline ∨ rest = []

/-- The first line that is not the bytes of a text, behind whole lines that are. -/
structure BreaksAt (input : List UInt8) (before : String) (line rest : List UInt8) : Prop where
  input_eq : input = encode before.toList ++ (line ++ rest)
  before_ends : ∀ c ∈ before.toList.getLast?, c = '\n'
  isLine : IsLine line rest
  ne_encode : ∀ text : String, line ≠ encode text.toList

section Characters

variable {c d : Char} {b : UInt8} {text : List Char}

/-- A byte below 128 encodes a character by itself. -/
theorem mem_utf8EncodeChar (hb : b.toNat < 128) (h : b ∈ String.utf8EncodeChar c) :
    c.toNat = b.toNat ∧ String.utf8EncodeChar c = [b] := by
  have hor : ∀ x k : UInt8, 128 ≤ k.toNat → b ≠ x ||| k := by
    rintro x k hk rfl
    rw [UInt8.toNat_or] at hb
    exact absurd (Nat.le_trans hk Nat.right_le_or) (Nat.not_le.2 hb)
  rcases Char.utf8Size_eq c with hc | hc | hc | hc
  · rw [String.utf8EncodeChar_eq_singleton hc] at h ⊢
    obtain rfl := List.mem_singleton.1 h
    have hle : c.toNat ≤ 127 := UInt32.le_iff_toNat_le.1 (Char.utf8Size_eq_one_iff.1 hc)
    refine ⟨?_, rfl⟩
    show c.toNat = c.toNat % 256
    omega
  · rw [String.utf8EncodeChar_eq_cons_cons hc] at h
    simp only [List.mem_cons, List.not_mem_nil, or_false] at h
    rcases h with h | h <;> exact absurd h (hor _ _ (by decide))
  · rw [String.utf8EncodeChar_eq_cons_cons_cons hc] at h
    simp only [List.mem_cons, List.not_mem_nil, or_false] at h
    rcases h with h | h | h <;> exact absurd h (hor _ _ (by decide))
  · rw [String.utf8EncodeChar_eq_cons_cons_cons_cons hc] at h
    simp only [List.mem_cons, List.not_mem_nil, or_false] at h
    rcases h with h | h | h | h <;> exact absurd h (hor _ _ (by decide))

theorem mem_utf8EncodeChar_iff (hb : b.toNat < 128) (hd : String.utf8EncodeChar d = [b]) :
    b ∈ String.utf8EncodeChar c ↔ c = d := by
  constructor
  · intro h
    have hdb := (mem_utf8EncodeChar hb (hd ▸ List.mem_singleton_self b)).1
    exact Char.toNat_inj.1 ((mem_utf8EncodeChar hb h).1.trans hdb.symm)
  · rintro rfl
    simp [hd]

theorem mem_encode_iff (hb : b.toNat < 128) (hd : String.utf8EncodeChar d = [b]) :
    b ∈ encode text ↔ d ∈ text := by
  simp [encode, mem_utf8EncodeChar_iff hb hd]

theorem encode_append (text more : List Char) :
    encode (text ++ more) = encode text ++ encode more :=
  List.flatMap_append

theorem encode_singleton (c : Char) : encode [c] = String.utf8EncodeChar c := by
  simp [encode]

theorem getLast?_encode_iff (hb : b.toNat < 128) (hd : String.utf8EncodeChar d = [b]) :
    (encode text).getLast? = some b ↔ text.getLast? = some d := by
  rcases List.eq_nil_or_concat' text with rfl | ⟨init, c, rfl⟩
  · simp [encode]
  · rw [encode_append, encode_singleton,
      List.getLast?_append_of_ne_nil _ String.utf8EncodeChar_ne_nil, List.getLast?_concat,
      Option.some_inj, ← mem_utf8EncodeChar_iff hb hd]
    constructor
    · exact List.mem_of_getLast?
    · intro h
      simp [(mem_utf8EncodeChar hb h).2]

theorem newline_mem_encode_iff : newline ∈ encode text ↔ '\n' ∈ text :=
  mem_encode_iff (by decide) (by decide)

theorem encode_eq_nil_iff : encode text = [] ↔ text = [] := by
  cases text <;> simp [encode]

theorem toUTF8_eq_encode (text : String) : text.toUTF8.data.toList = encode text.toList := by
  rw [String.toUTF8_eq_toByteArray, ← String.utf8Encode_toList, encode, List.utf8Encode,
    List.data_toByteArray]

/-- Bytes are read as a text exactly if they are its bytes. -/
theorem decodeText_eq_ok_iff {bytes : List UInt8} {text : String} :
    decodeText ⟨bytes.toArray⟩ = .ok text ↔ bytes = encode text.toList := by
  rw [← toUTF8_eq_encode, decodeText, String.fromUTF8?]
  split_ifs with h
  · simp only [Except.ok.injEq]
    constructor
    · rintro rfl
      rfl
    · rintro rfl
      rfl
  · refine iff_of_false nofun ?_
    rintro rfl
    exact h text.isValidUTF8

theorem decodeText_encode (text : List Char) :
    decodeText ⟨(encode text).toArray⟩ = .ok (String.ofList text) :=
  decodeText_eq_ok_iff.2 (by rw [String.toList_ofList])

theorem decodeText_toUTF8 (text : String) : decodeText text.toUTF8 = .ok text :=
  decodeText_eq_ok_iff.2 (toUTF8_eq_encode text)

end Characters

section Lines

variable {line rest bytes : List UInt8} {b : UInt8}

theorem isLine_newline (rest : List UInt8) : IsLine [newline] rest :=
  ⟨by simp, by simp, .inl rfl⟩

theorem isLine_cons_iff (hb : b ≠ newline) (hne : line ≠ []) :
    IsLine (b :: line) rest ↔ IsLine line rest := by
  obtain ⟨x, xs, rfl⟩ := List.exists_cons_of_ne_nil hne
  have hmem : newline ∉ (b :: x :: xs).dropLast ↔ newline ∉ (x :: xs).dropLast := by
    simp [hb.symm]
  constructor
  · rintro ⟨-, hnot, hends⟩
    exact ⟨hne, hmem.1 hnot, by simpa using hends⟩
  · rintro ⟨-, hnot, hends⟩
    exact ⟨by simp, hmem.2 hnot, by simpa using hends⟩

theorem isLine_nextLine : ∀ {bytes : List UInt8}, bytes ≠ [] →
    IsLine (nextLine bytes).1 (nextLine bytes).2
  | b :: bytes, _ => by
    unfold nextLine
    split_ifs with hb
    · rw [hb]
      exact isLine_newline bytes
    · rcases bytes with _ | ⟨x, xs⟩
      · exact ⟨by simp, by simp [nextLine], .inr rfl⟩
      · have hline := isLine_nextLine (List.cons_ne_nil x xs)
        exact (isLine_cons_iff hb hline.ne_nil).2 hline

theorem IsLine.nextLine_eq : ∀ {line : List UInt8}, IsLine line rest →
    nextLine (line ++ rest) = (line, rest)
  | [], h => absurd rfl h.ne_nil
  | b :: line, h => by
    rw [List.cons_append, nextLine]
    split_ifs with hb
    · have hnil : line = [] := by
        by_contra hne
        obtain ⟨x, xs, rfl⟩ := List.exists_cons_of_ne_nil hne
        exact h.newline_not_mem (by simp [hb])
      simp [hnil, hb]
    · rcases line with _ | ⟨x, xs⟩
      · have hrest : rest = [] := h.ends.resolve_left (by simpa using hb)
        simp [hrest, nextLine]
      · have hline := (isLine_cons_iff hb (by simp)).1 h
        simp only [hline.nextLine_eq]

theorem IsLine.lines_eq (h : IsLine line rest) : lines (line ++ rest) = line :: lines rest := by
  have hne : line ++ rest ≠ [] := List.append_ne_nil_of_left_ne_nil h.ne_nil rest
  obtain ⟨b, bytes, hb⟩ := List.exists_cons_of_ne_nil hne
  have hnext := h.nextLine_eq
  rw [hb] at hnext ⊢
  rw [lines, hnext]

theorem IsLine.append_right (h : IsLine line rest)
    (hend : ∀ b ∈ (line ++ rest).getLast?, b = newline) (more : List UInt8) :
    IsLine line (rest ++ more) := by
  refine ⟨h.ne_nil, h.newline_not_mem, .inl ?_⟩
  rcases h.ends with hnewline | rfl
  · exact hnewline
  · obtain ⟨b, hb⟩ := Option.isSome_iff_exists.1 (List.getLast?_isSome.2 h.ne_nil)
    rw [hb, hend b (by simpa using hb)]

/-- The lines before a place where a line ends, and those behind it. -/
theorem lines_append (h : ∀ b ∈ bytes.getLast?, b = newline) (more : List UInt8) :
    lines (bytes ++ more) = lines bytes ++ lines more := by
  fun_induction lines bytes with
  | case1 => rfl
  | case2 b bytes ih =>
    have hline := isLine_nextLine (List.cons_ne_nil b bytes)
    have heq := nextLine_append (b :: bytes)
    rw [← heq] at h
    have hrest : ∀ b' ∈ (nextLine (b :: bytes)).2.getLast?, b' = newline := fun b' hb' =>
      h b' (by simp [List.getLast?_append, Option.mem_def.1 hb'])
    have hmore : b :: bytes ++ more =
        (nextLine (b :: bytes)).1 ++ ((nextLine (b :: bytes)).2 ++ more) := by
      rw [← List.append_assoc, heq]
    rw [hmore, (hline.append_right h more).lines_eq, ih hrest, List.cons_append]

theorem chomp_concat_newline (line : List UInt8) : chomp (line ++ [newline]) =
    if line.getLast? = some carriageReturn then line.dropLast else line := by
  rcases List.eq_nil_or_concat' line with rfl | ⟨init, b, rfl⟩
  · simp [chomp]
  · by_cases hb : b = carriageReturn
    · simp [chomp, hb]
    · simp [chomp, hb]

theorem chomp_of_getLast? (h : line.getLast? ≠ some newline) : chomp line = line := by
  unfold chomp
  split
  · rename_i hr
    exact absurd (by rw [← List.head?_reverse, hr]; rfl) h
  · rename_i hr
    exact absurd (by rw [← List.head?_reverse, hr]; rfl) h
  · rfl

end Lines

section Encoded

variable {text : List Char}

theorem chomp_encode (line : List Char) :
    chomp (encode line ++ [newline]) = encode (dropReturn line) := by
  have hreturn : (encode line).getLast? = some carriageReturn ↔ line.getLast? = some '\r' :=
    getLast?_encode_iff (by decide) (by decide)
  simp only [chomp_concat_newline, hreturn, dropReturn]
  split_ifs with h
  · obtain ⟨init, rfl⟩ := List.getLast?_eq_some_iff.1 h
    rw [encode_append, show encode ['\r'] = [carriageReturn] by decide, List.dropLast_concat,
      List.dropLast_concat]
  · rfl

/-- What is left of a line without its end becomes the line again with some characters. -/
theorem exists_chomp_append (line : List UInt8) : ∃ tail, line = chomp line ++ encode tail := by
  by_cases h : line.getLast? = some newline
  · obtain ⟨init, rfl⟩ := List.getLast?_eq_some_iff.1 h
    rw [chomp_concat_newline]
    split_ifs with hr
    · obtain ⟨init, rfl⟩ := List.getLast?_eq_some_iff.1 hr
      exact ⟨['\r', '\n'], by simp [show encode ['\r', '\n'] = [carriageReturn, newline] by decide]⟩
    · exact ⟨['\n'], rfl⟩
  · exact ⟨[], by simp [chomp_of_getLast? h, encode]⟩

theorem encode_concat_newline (line : List Char) :
    encode (line ++ ['\n']) = encode line ++ [newline] :=
  encode_append line ['\n']

theorem getLast?_encode (h : ∀ c ∈ text.getLast?, c = '\n') :
    ∀ b ∈ (encode text).getLast?, b = newline := by
  rcases List.eq_nil_or_concat' text with rfl | ⟨init, c, rfl⟩
  · simp [encode]
  · obtain rfl := h c (by simp)
    simp [encode_concat_newline, eq_comm]

theorem map_chomp_linesFrom : ∀ (text line : List Char), '\n' ∉ line →
    (lines (encode (line ++ text))).map chomp = (linesFrom line text).map encode
  | [], line, h => by
    have hno : newline ∉ encode line := fun hm => h (newline_mem_encode_iff.1 hm)
    rw [List.append_nil, linesFrom]
    split_ifs with hline
    · simp [hline, encode, lines]
    · have hl : IsLine (encode line) [] :=
        ⟨fun hn => hline (encode_eq_nil_iff.1 hn), fun hm => hno (List.dropLast_subset _ hm),
          .inr rfl⟩
      have hlines := hl.lines_eq
      rw [List.append_nil] at hlines
      rw [hlines, lines, List.map_singleton, List.map_singleton,
        chomp_of_getLast? fun hl => hno (List.mem_of_getLast? hl)]
  | c :: text, line, h => by
    rw [linesFrom]
    split_ifs with hc
    · have hl : IsLine (encode line ++ [newline]) (encode text) :=
        ⟨by simp, by simpa [newline_mem_encode_iff] using h, .inl (by simp)⟩
      have hsplit : line ++ c :: text = (line ++ ['\n']) ++ text := by simp [hc]
      rw [hsplit, encode_append, encode_concat_newline, hl.lines_eq, List.map_cons, List.map_cons,
        chomp_encode]
      exact congrArg _ (map_chomp_linesFrom text [] (by simp))
    · have hsplit : line ++ c :: text = (line ++ [c]) ++ text := by simp
      rw [hsplit]
      exact map_chomp_linesFrom text _ (by simp [h, Ne.symm hc])

/-- The lines of the bytes of a text, as they are read, are the lines of the text. -/
theorem decode_lines (text : String) :
    (lines (encode text.toList)).map (fun line => decodeText ⟨(chomp line).toArray⟩) =
      (linesOf text).map .ok := by
  have hlines := map_chomp_linesFrom text.toList [] (by simp)
  rw [List.nil_append] at hlines
  have hmap := congrArg (List.map fun line => decodeText ⟨line.toArray⟩) hlines
  rw [List.map_map, List.map_map] at hmap
  rw [linesOf, List.map_map]
  exact hmap.trans (List.map_congr_left fun line _ => decodeText_encode line)

/-- A line that is not the bytes of a text is not read as one. -/
theorem decodeText_chomp {line : List UInt8} (h : ∀ text : String, line ≠ encode text.toList) :
    decodeText ⟨(chomp line).toArray⟩ = .error .invalidText := by
  obtain ⟨tail, htail⟩ := exists_chomp_append line
  unfold decodeText
  split
  · rename_i text htext
    have hok : decodeText ⟨(chomp line).toArray⟩ = .ok text := by simp only [decodeText, htext]
    rw [decodeText_eq_ok_iff.1 hok, ← encode_append] at htail
    exact absurd htail (by simpa using h (text ++ String.ofList tail))
  · rfl

end Encoded

section Breaks

variable {input line rest : List UInt8} {text before : String}

theorem BreaksAt.lines_eq (h : BreaksAt input before line rest) :
    lines input = lines (encode before.toList) ++ line :: lines rest := by
  rw [h.input_eq, lines_append (getLast?_encode h.before_ends), h.isLine.lines_eq]

/-- A line that is the bytes of a text can be put before. -/
theorem BreaksAt.behind (h : BreaksAt input before line rest)
    (hline : IsLine (encode text.toList) input) :
    BreaksAt (encode text.toList ++ input) (text ++ before) line rest := by
  have hne : input ≠ [] := by
    rw [h.input_eq]
    simp [h.isLine.ne_nil]
  have hends : text.toList.getLast? = some '\n' :=
    (getLast?_encode_iff (by decide) (by decide)).1 (hline.ends.resolve_right hne)
  refine ⟨?_, fun c hc => ?_, h.isLine, h.ne_encode⟩
  · rw [String.toList_append, encode_append, List.append_assoc, ← h.input_eq]
  · rw [String.toList_append, List.getLast?_append, hends] at hc
    rcases hb : before.toList.getLast? with _ | d <;> rw [hb] at hc
    · simpa [eq_comm] using hc
    · obtain rfl : d = c := by simpa using hc
      exact h.before_ends d hb

/-- Bytes are those of a text, or there is a first line among them that is not. -/
theorem exists_breaksAt : ∀ input : List UInt8, (∃ text : String, input = encode text.toList) ∨
    ∃ before line rest, BreaksAt input before line rest
  | [] => .inl ⟨"", rfl⟩
  | b :: bytes => by
    have hline := isLine_nextLine (List.cons_ne_nil b bytes)
    have heq := nextLine_append (b :: bytes)
    have hlt := length_nextLine_lt b bytes
    generalize (nextLine (b :: bytes)).1 = line, (nextLine (b :: bytes)).2 = rest at *
    by_cases htext : ∃ text : String, line = encode text.toList
    · obtain ⟨text, rfl⟩ := htext
      rcases exists_breaksAt rest with ⟨more, rfl⟩ | ⟨before, line, rest', h⟩
      · exact .inl ⟨text ++ more, by rw [String.toList_append, encode_append, heq]⟩
      · exact .inr ⟨text ++ before, line, rest', heq ▸ h.behind hline⟩
    · exact .inr ⟨"", line, rest, by simpa [encode] using heq.symm, by simp, hline,
        fun text ht => htext ⟨text, ht⟩⟩
termination_by input => input.length
decreasing_by exact hlt

end Breaks

end Text

end Lox
