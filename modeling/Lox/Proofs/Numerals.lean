import Lox.Proofs.Digits
import Lox.Proofs.Rounding
import Lox.Proofs.Scanning

/-!
# What a numeral stands for

A numeral is a sign, which may be missing, and then a word in letters of any case or a decimal
numeral: digits with at most one dot among them, and an exponent, which may be missing too.
`Numeral.Writes` says which texts are decimal numerals and what exact value each has, and the
reader accepts these texts and no others (`Numeral.exists_decimalOfText?_iff`).

With the rounding of decimals this settles what a text is read as, however many digits it has, and
so what the tokens of a scan stand for (`Number.ofText?_nearest`).
-/

namespace Lox

namespace Numeral

/-- The number that digits write. -/
def digitsValue (digits : List Char) : ℕ := Nat.ofDigits 10 (digits.reverse.map Digits.value)

/-- A sign that may be missing, and whether it is a minus. -/
inductive Sign : List Char → Bool → Prop
  | none : Sign [] false
  | plus : Sign ['+'] false
  | minus : Sign ['-'] true

/-- Digits with at most one dot, and their value. -/
inductive Coefficient : List Char → ℚ → Prop
  | whole {digits : List Char} : Tile.IsDigits digits → Coefficient digits (digitsValue digits)
  | point {before behind : List Char} : (∀ c ∈ before, c.isDigit) → (∀ c ∈ behind, c.isDigit) →
      before ++ behind ≠ [] → Coefficient (before ++ '.' :: behind)
        (digitsValue before + digitsValue behind / 10 ^ behind.length)

/-- An exponent that may be missing, and its value. -/
inductive Exponent : List Char → ℤ → Prop
  | none : Exponent [] 0
  | written {letter : Char} {sign digits : List Char} {negative : Bool} :
      letter = 'e' ∨ letter = 'E' → Sign sign negative → Tile.IsDigits digits →
      Exponent (letter :: (sign ++ digits))
        (if negative then -(digitsValue digits : ℤ) else digitsValue digits)

/-- A decimal numeral without sign, and its exact value. -/
def Writes (text : List Char) (q : ℚ) : Prop :=
  ∃ before behind c k, Coefficient before c ∧ Exponent behind k ∧ text = before ++ behind ∧
    q = c * 10 ^ k

/-- A word of small letters, with any of them capital. -/
def Spells (word : String) (text : List Char) : Prop :=
  List.Forall₂ (fun c d => d = c ∨ d = c.toUpper) word.toList text

section Words

theorem toNat_toLower (c : Char) :
    c.toLower.toNat = if 65 ≤ c.toNat ∧ c.toNat ≤ 90 then c.toNat + 32 else c.toNat := by
  split_ifs with h
  · have hc : c.toLower = ⟨c.val + ('a'.val - 'A'.val), _⟩ := dif_pos h
    have hadd : c.toLower.toNat = (c.toNat + 32) % 4294967296 := by
      rw [hc]
      exact UInt32.toNat_add ..
    omega
  · exact congrArg Char.toNat (dif_neg h)

theorem toNat_toUpper (c : Char) :
    c.toUpper.toNat = if 97 ≤ c.toNat ∧ c.toNat ≤ 122 then c.toNat - 32 else c.toNat := by
  split_ifs with h
  · have hc : c.toUpper = ⟨c.val + ('A'.val - 'a'.val), _⟩ := dif_pos h
    -- what is added is 32 less than where numbers of 32 bits start again
    have hadd : c.toUpper.toNat = (c.toNat + 4294967264) % 4294967296 := by
      rw [hc]
      exact UInt32.toNat_add ..
    omega
  · exact congrArg Char.toNat (dif_neg h)

theorem toLower_eq_iff {c d : Char} (hc : c.isLower) :
    d.toLower = c ↔ d = c ∨ d = c.toUpper := by
  obtain ⟨hlow, hhigh⟩ := Bool.and_eq_true_iff.1 hc
  have hlow : 97 ≤ c.toNat := UInt32.le_iff_toNat_le.1 (of_decide_eq_true hlow)
  have hhigh : c.toNat ≤ 122 := UInt32.le_iff_toNat_le.1 (of_decide_eq_true hhigh)
  have hupper : c.toUpper.toNat = c.toNat - 32 := by rw [toNat_toUpper, if_pos ⟨hlow, hhigh⟩]
  rw [← Char.toNat_inj, ← Char.toNat_inj, ← Char.toNat_inj, toNat_toLower, hupper]
  split_ifs <;> omega

theorem map_toLower_eq_iff {word text : List Char} (hw : ∀ c ∈ word, c.isLower) :
    text.map Char.toLower = word ↔ List.Forall₂ (fun c d => d = c ∨ d = c.toUpper) word text := by
  induction word generalizing text with
  | nil => simp
  | cons c word ih =>
    obtain ⟨hc, hw⟩ := List.forall_mem_cons.1 hw
    cases text with
    | nil => simp
    | cons d text =>
      rw [List.map_cons, List.cons.injEq, toLower_eq_iff hc, ih hw, List.forall₂_cons]

theorem spells_iff {word : String} {text : List Char} (hw : word.toList.all Char.isLower) :
    String.ofList (text.map Char.toLower) = word ↔ Spells word text := by
  rw [Spells, ← map_toLower_eq_iff (List.all_eq_true.1 hw)]
  constructor
  · rintro rfl
    exact String.toList_ofList.symm
  · intro h
    rw [h, String.ofList_toList]

end Words

section Digits

variable {digits text : List Char} {k : ℤ}

theorem natOfText?_eq_some_iff {n : Nat} :
    natOfText? text = some n ↔ Tile.IsDigits text ∧ digitsValue text = n := by
  have hdigits : text ≠ [] ∧ text.all Char.isDigit ↔ Tile.IsDigits text := by
    rw [List.all_eq_true]
    rfl
  rw [natOfText?, Digits.ofDigits_eq]
  split_ifs with h
  · rw [and_iff_right (hdigits.1 h), Option.some.injEq]
    rfl
  · exact iff_of_false nofun fun hn => h (hdigits.2 hn.1)

theorem Sign.head {sign : List Char} {negative : Bool} (h : Sign sign negative) :
    ∀ c ∈ sign.head?, c = '+' ∨ c = '-' := by
  cases h <;> simp

theorem isDigits_head_ne (h : Tile.IsDigits text) {c : Char} (hc : c.isDigit = false)
    (rest : List Char) : text ≠ c :: rest := by
  rintro rfl
  have := h.2 c List.mem_cons_self
  simp [hc] at this

theorem intOfText?_eq_some_iff : intOfText? text = some k ↔
    ∃ sign negative digits, Sign sign negative ∧ Tile.IsDigits digits ∧ text = sign ++ digits ∧
      k = if negative then -(digitsValue digits : ℤ) else digitsValue digits := by
  constructor
  · intro h
    unfold intOfText? at h
    split at h
    all_goals
      obtain ⟨z, hz, rfl⟩ := Option.map_eq_some_iff.1 h
      obtain ⟨n, hn, hz⟩ := Option.bind_eq_some_iff.1 hz
      obtain ⟨hd, rfl⟩ := natOfText?_eq_some_iff.1 hn
      cases hz
    · exact ⟨_, _, _, .minus, hd, rfl, rfl⟩
    · exact ⟨_, _, _, .plus, hd, rfl, rfl⟩
    · exact ⟨_, _, _, .none, hd, rfl, rfl⟩
  · rintro ⟨sign, negative, digits, hs, hd, rfl, rfl⟩
    have hn := natOfText?_eq_some_iff.2 ⟨hd, rfl⟩
    cases hs with
    | plus | minus => simp [intOfText?, hn]
    | none =>
      have hminus := isDigits_head_ne hd (c := '-') rfl
      have hplus := isDigits_head_ne hd (c := '+') rfl
      rw [List.nil_append]
      unfold intOfText?
      split
      · exact absurd rfl (hminus _)
      · exact absurd rfl (hplus _)
      · simp [hn]

theorem exponentOfText?_eq_some_iff : exponentOfText? text = some k ↔ Exponent text k := by
  constructor
  · intro h
    unfold exponentOfText? at h
    split at h
    · cases h
      exact .none
    · split at h
      · obtain ⟨sign, negative, digits, hs, hd, rfl, rfl⟩ := intOfText?_eq_some_iff.1 h
        exact .written ‹_› hs hd
      · cases h
  · intro h
    cases h with
    | none => rfl
    | written hl hs hd =>
      rw [exponentOfText?, if_pos hl]
      exact intOfText?_eq_some_iff.2 ⟨_, _, _, hs, hd, rfl, rfl⟩

theorem Exponent.head (h : Exponent text k) : ∀ c ∈ text.head?, c.isDigit = false ∧ c ≠ '.' := by
  cases h with
  | none => simp
  | written hl => rcases hl with rfl | rfl <;> simp

end Digits

section Decimals

variable {text before behind : List Char} {q : ℚ} {k : ℤ}

theorem value_mk_append (before behind : List Char) (k : ℤ) :
    (Decimal.mk (Digits.ofDigits (before ++ behind)) (k - behind.length)).value =
      (digitsValue before + digitsValue behind / 10 ^ behind.length) * 10 ^ k := by
  have hpos : (10 : ℚ) ^ behind.length ≠ 0 := by positivity
  rw [Decimal.value, Digits.ofDigits_append, Digits.ofDigits_eq, Digits.ofDigits_eq,
    zpow_sub₀ (by norm_num), zpow_natCast, Nat.cast_add, Nat.cast_mul, cast_powTen]
  simp only [digitsValue]
  field_simp

theorem value_mk (digits : List Char) (k : ℤ) :
    (Decimal.mk (Digits.ofDigits digits) k).value = digitsValue digits * 10 ^ k := by
  rw [Decimal.value, Digits.ofDigits_eq, digitsValue]

theorem decimalOfText?_whole (hd : Tile.IsDigits before) (he : Exponent behind k) :
    decimalOfText? (before ++ behind) = some ⟨Digits.ofDigits before, k⟩ := by
  have hspan := Tile.span_digits hd.2 behind fun c hc => (he.head c hc).1
  have hfraction : fraction behind = ([], behind) := by
    unfold fraction
    split
    · exact absurd rfl (he.head '.' rfl).2
    · rfl
  simp only [decimalOfText?, hspan, hfraction, List.append_nil, if_neg hd.1,
    exponentOfText?_eq_some_iff.2 he, Option.map_some, List.length_nil, Nat.cast_zero, sub_zero]

theorem decimalOfText?_point {part : List Char} (hb : ∀ c ∈ before, c.isDigit)
    (hp : ∀ c ∈ part, c.isDigit) (hne : before ++ part ≠ []) (he : Exponent behind k) :
    decimalOfText? (before ++ '.' :: part ++ behind) =
      some ⟨Digits.ofDigits (before ++ part), k - part.length⟩ := by
  have hspan := Tile.span_digits hb ('.' :: (part ++ behind)) (by simp)
  have hspan' := Tile.span_digits hp behind fun c hc => (he.head c hc).1
  rw [List.append_assoc, List.cons_append]
  simp only [decimalOfText?, hspan, fraction, hspan', if_neg hne,
    exponentOfText?_eq_some_iff.2 he, Option.map_some]

theorem writes_of_decimalOfText? {d : Decimal} (h : decimalOfText? text = some d) :
    Writes text d.value := by
  unfold decimalOfText? at h
  simp only [List.span_eq_takeWhile_dropWhile] at h
  have htext := Tile.cut_append Char.isDigit text
  have hdigits : ∀ c ∈ (Tile.cut Char.isDigit text).1, c.isDigit := Tile.all_cut
  simp only [Tile.cut] at htext hdigits
  generalize text.takeWhile Char.isDigit = before at h htext hdigits
  generalize text.dropWhile Char.isDigit = rest at h htext
  subst htext
  rcases hf : fraction rest with ⟨part, behind⟩
  rw [hf] at h
  split_ifs at h with hne
  obtain ⟨k, hk, rfl⟩ := Option.map_eq_some_iff.1 h
  have he := exponentOfText?_eq_some_iff.1 hk
  unfold fraction at hf
  split at hf
  · rename_i after
    have hpart : ∀ c ∈ (Tile.cut Char.isDigit after).1, c.isDigit := Tile.all_cut
    have hafter := Tile.cut_append Char.isDigit after
    rw [List.span_eq_takeWhile_dropWhile] at hf
    rw [Tile.cut, hf] at hpart hafter
    subst hafter
    exact ⟨_, _, _, k, .point hdigits hpart hne, he, by simp, value_mk_append _ _ _⟩
  · cases hf
    rw [List.append_nil] at hne
    refine ⟨_, _, _, k, .whole ⟨hne, hdigits⟩, he, rfl, ?_⟩
    rw [List.append_nil, List.length_nil, Nat.cast_zero, sub_zero, value_mk]

/-- The decimal numerals are read, with their exact values, and no other texts. -/
theorem exists_decimalOfText?_iff :
    (∃ d, decimalOfText? text = some d ∧ d.value = q) ↔ Writes text q := by
  constructor
  · rintro ⟨d, hd, rfl⟩
    exact writes_of_decimalOfText? hd
  · rintro ⟨before, behind, c, k, hc, he, rfl, rfl⟩
    cases hc with
    | whole hd => exact ⟨_, decimalOfText?_whole hd he, value_mk _ _⟩
    | point hb hp hne => exact ⟨_, decimalOfText?_point hb hp hne he, value_mk_append _ _ _⟩

end Decimals

section Texts

variable {text : List Char} {q : ℚ} {word : String}

/-- Neither a word nor a decimal numeral begins with a sign. -/
def NoSign (text : List Char) : Prop := ∀ c ∈ text.head?, c ≠ '+' ∧ c ≠ '-'

theorem Writes.head (h : Writes text q) : ∃ c rest, text = c :: rest ∧ (c.isDigit ∨ c = '.') := by
  obtain ⟨before, behind, c, k, hc, -, rfl, -⟩ := h
  cases hc with
  | whole hd =>
    obtain ⟨d, ds, rfl⟩ := List.exists_cons_of_ne_nil hd.1
    exact ⟨d, _, rfl, .inl (hd.2 d List.mem_cons_self)⟩
  | @point digits _ hb =>
    rcases digits with _ | ⟨d, ds⟩
    · exact ⟨'.', _, rfl, .inr rfl⟩
    · exact ⟨d, _, rfl, .inl (hb d List.mem_cons_self)⟩

theorem writes_point {whole part : List Char} (hw : Tile.IsDigits whole)
    (hp : Tile.IsDigits part) : Writes (whole ++ '.' :: part)
      (Decimal.mk (Digits.ofDigits (whole ++ part)) (-part.length)).value := by
  have hne : whole ++ part ≠ [] := by simp [hw.1]
  have hvalue := value_mk_append whole part 0
  rw [zero_sub] at hvalue
  exact ⟨_, _, _, _, .point hw.2 hp.2 hne, .none, (List.append_nil _).symm, hvalue⟩

theorem exists_writes (h : Tile.IsNumber text) : ∃ q, Writes text q := by
  obtain ⟨whole, hw, rfl | ⟨part, hp, rfl⟩⟩ := h
  · exact ⟨_, _, _, _, _, .whole hw, .none, (List.append_nil _).symm, rfl⟩
  · exact ⟨_, writes_point hw hp⟩

theorem Writes.noSign (h : Writes text q) : NoSign text := by
  obtain ⟨c, rest, rfl, hc⟩ := h.head
  rintro _ ⟨rfl⟩
  constructor <;> rintro rfl <;> simp at hc

theorem Spells.head {c : Char} {letters : List Char} (h : Spells word text)
    (hw : word.toList = c :: letters) : ∃ d rest, text = d :: rest ∧ (d = c ∨ d = c.toUpper) := by
  rw [Spells, hw] at h
  obtain ⟨d, rest, hd, -, rfl⟩ := List.forall₂_cons_left_iff.1 h
  exact ⟨d, rest, rfl, hd⟩

/-- What begins like a number or with a sign is no word of letters. -/
theorem Spells.noSign {c : Char} {letters : List Char} (h : Spells word text)
    (hw : word.toList = c :: letters) (hc : c = 'i' ∨ c = 'n') :
    NoSign text ∧ ¬ Writes text q := by
  obtain ⟨d, rest, rfl, hd⟩ := h.head hw
  have hd : d = 'i' ∨ d = 'I' ∨ d = 'n' ∨ d = 'N' := by
    rcases hc with rfl | rfl <;> rcases hd with rfl | rfl <;> decide
  refine ⟨?_, fun hq => ?_⟩
  · rintro _ ⟨rfl⟩
    rcases hd with rfl | rfl | rfl | rfl <;> decide
  · obtain ⟨_, _, he, hq⟩ := hq.head
    cases he
    rcases hd with rfl | rfl | rfl | rfl <;> simp at hq

theorem spells_nan_iff :
    String.ofList (text.map Char.toLower) = "nan" ↔ Spells "nan" text := spells_iff (by decide)

theorem spells_infinity_iff : String.ofList (text.map Char.toLower) = "inf" ∨
    String.ofList (text.map Char.toLower) = "infinity" ↔
      Spells "inf" text ∨ Spells "infinity" text :=
  or_congr (spells_iff (by decide)) (spells_iff (by decide))

theorem ofText?_of_nan (h : Spells "nan" text) : ofText? text = some .nan :=
  if_pos (spells_nan_iff.2 h)

theorem ofText?_of_infinity (h : Spells "inf" text ∨ Spells "infinity" text) :
    ofText? text = some .infinity := by
  have hinf := spells_infinity_iff.2 h
  have hnan : String.ofList (text.map Char.toLower) ≠ "nan" := by
    intro hn
    rw [hn] at hinf
    revert hinf
    decide
  rw [ofText?, if_neg hnan, if_pos hinf]

theorem ofText?_of_writes (h : Writes text q) :
    ∃ d, ofText? text = some (.decimal d) ∧ d.value = q := by
  obtain ⟨d, hd, hq⟩ := exists_decimalOfText?_iff.2 h
  have hnan : ¬ Spells "nan" text := fun hn => (hn.noSign rfl (.inr rfl)).2 h
  have hinf : ¬ (Spells "inf" text ∨ Spells "infinity" text) := by
    rintro (hi | hi)
    · exact (hi.noSign rfl (.inl rfl)).2 h
    · exact (hi.noSign rfl (.inl rfl)).2 h
  refine ⟨d, ?_, hq⟩
  rw [ofText?, if_neg (mt spells_nan_iff.1 hnan), if_neg (mt spells_infinity_iff.1 hinf), hd]
  rfl

/-- The texts that are read after a sign. -/
theorem isSome_ofText?_iff : (ofText? text).isSome ↔
    Spells "inf" text ∨ Spells "infinity" text ∨ Spells "nan" text ∨ ∃ q, Writes text q := by
  constructor
  · intro h
    simp only [ofText?] at h
    split_ifs at h with hn hi
    · exact .inr (.inr (.inl (spells_nan_iff.1 hn)))
    · exact (spells_infinity_iff.1 hi).elim .inl fun hi => .inr (.inl hi)
    · rw [Option.isSome_map] at h
      obtain ⟨d, hd⟩ := Option.isSome_iff_exists.1 h
      exact .inr (.inr (.inr ⟨_, writes_of_decimalOfText? hd⟩))
  · rintro (h | h | h | ⟨q, h⟩)
    · rw [ofText?_of_infinity (.inl h)]
      rfl
    · rw [ofText?_of_infinity (.inr h)]
      rfl
    · rw [ofText?_of_nan h]
      rfl
    · obtain ⟨d, hd, -⟩ := ofText?_of_writes h
      rw [hd]
      rfl

theorem noSign_of_isSome (h : (ofText? text).isSome) : NoSign text := by
  rcases isSome_ofText?_iff.1 h with h | h | h | ⟨q, h⟩
  · exact (h.noSign (q := 0) rfl (.inl rfl)).1
  · exact (h.noSign (q := 0) rfl (.inl rfl)).1
  · exact (h.noSign (q := 0) rfl (.inr rfl)).1
  · exact h.noSign

end Texts

end Numeral

namespace Number

open Numeral

variable {sign text : List Char} {negative : Bool}

/-- The sign is taken off first. -/
theorem ofText?_append (hs : Sign sign negative) (ht : NoSign text) :
    ofText? (sign ++ text) = (Numeral.ofText? text).map (toNumber negative) := by
  cases hs with
  | plus | minus => rfl
  | none =>
    rw [List.nil_append]
    unfold ofText?
    split
    · exact absurd rfl (ht '-' rfl).2
    · exact absurd rfl (ht '+' rfl).1
    · rfl

theorem ofText?_append_eq_some {n : Numeral} (hs : Sign sign negative)
    (h : Numeral.ofText? text = some n) :
    ofText? (sign ++ text) = some (n.toNumber negative) := by
  rw [ofText?_append hs (noSign_of_isSome (by rw [h]; rfl)), h]
  rfl

theorem isSome_ofText?_iff : (ofText? text).isSome ↔
    ∃ sign negative body, Sign sign negative ∧ text = sign ++ body ∧
      (Numeral.ofText? body).isSome := by
  constructor
  · intro h
    unfold ofText? at h
    split at h <;> rw [Option.isSome_map] at h
    · exact ⟨_, _, _, .minus, rfl, h⟩
    · exact ⟨_, _, _, .plus, rfl, h⟩
    · exact ⟨_, _, _, .none, rfl, h⟩
  · rintro ⟨sign, negative, body, hs, rfl, h⟩
    obtain ⟨n, hn⟩ := Option.isSome_iff_exists.1 h
    rw [ofText?_append_eq_some hs hn]
    rfl

theorem ofText?_of_writes {q : ℚ} (hs : Sign sign negative) (h : Writes text q) :
    ∃ m : Magnitude, ofText? (sign ++ text) = some (.signed negative m) ∧
      ∀ m' : Magnitude, m'.Nearest q ↔ m' = m := by
  obtain ⟨d, hd, rfl⟩ := Numeral.ofText?_of_writes h
  exact ⟨_, ofText?_append_eq_some hs hd, fun m' => d.rounds_nearest.nearest_iff⟩

end Number

namespace Scan

open Numeral

variable {source : String} {t : Token}

/-- A token of a number carries what its text is read as, never negative and never `nan`. -/
theorem number_nearest (h : t ∈ (ofSource source).tokens) (hk : t.kind = .number) :
    Tile.IsNumber t.lexeme.toList ∧ ∃ q, Writes t.lexeme.toList q ∧
      ∃ m : Magnitude, t.literal = some (.number (.signed false m)) ∧
        ∀ m' : Magnitude, m'.Nearest q ↔ m' = m := by
  have hne : t.kind ≠ .eof := by rw [hk]; exact nofun
  obtain ⟨line, tile, rest, hs, hreads, hlexeme, -⟩ := exists_gives h hne
  rw [hk] at hreads
  rw [hlexeme]
  generalize t.literal = literal at hreads ⊢
  cases hreads with
  | number hread =>
    rcases hs with hs | ⟨c, hc, -⟩
    · obtain ⟨q, hq⟩ := exists_writes hs.1
      obtain ⟨m, hm, hnear⟩ := Number.ofText?_of_writes .none hq
      obtain rfl := Option.some.inj (hread.symm.trans hm)
      exact ⟨hs.1, q, hq, m, rfl, hnear⟩
    · cases hc

end Scan

namespace Number

open Numeral

/-- The texts that are read, what a decimal numeral of any length is read as, and that the numbers
in a source are among these: none is negative, and none is not a number. -/
theorem ofText?_nearest :
    (∀ text, (ofText? text).isSome ↔ ∃ sign negative body, Sign sign negative ∧
      text = sign ++ body ∧ (Spells "inf" body ∨ Spells "infinity" body ∨ Spells "nan" body ∨
        ∃ q, Writes body q)) ∧
    (∀ sign negative body q, Sign sign negative → Writes body q →
      ∃ m : Magnitude, ofText? (sign ++ body) = some (.signed negative m) ∧
        ∀ m' : Magnitude, m'.Nearest q ↔ m' = m) ∧
    ∀ source, ∀ t ∈ (Scan.ofSource source).tokens, t.kind = .number →
      Tile.IsNumber t.lexeme.toList ∧ ∃ q, Writes t.lexeme.toList q ∧
        ∃ m : Magnitude, t.literal = some (.number (.signed false m)) ∧
          ∀ m' : Magnitude, m'.Nearest q ↔ m' = m := by
  refine ⟨fun text => ?_, fun sign negative body q hs h => ofText?_of_writes hs h,
    fun source t ht hk => Scan.number_nearest ht hk⟩
  simp only [isSome_ofText?_iff, Numeral.isSome_ofText?_iff]

/-- Halfway between `2 ^ 53` and the next magnitude the even significand is that of `2 ^ 53`. -/
theorem ofText?_nearest_tie : Writes "9007199254740993".toList 9007199254740993 ∧
    ∀ m : Magnitude, m.Nearest 9007199254740993 ↔ m = ⟨0x4340000000000000, by decide⟩ := by
  have hdigits : Tile.IsDigits "9007199254740993".toList :=
    ⟨by decide, List.all_eq_true.1 (by decide)⟩
  have hvalue : digitsValue "9007199254740993".toList = 9007199254740993 := by decide +kernel
  have hw : Writes "9007199254740993".toList 9007199254740993 := by
    refine ⟨_, _, _, _, .whole hdigits, .none, (List.append_nil _).symm, ?_⟩
    rw [hvalue, zpow_zero, mul_one]
    rfl
  obtain ⟨m, hm, hnear⟩ := ofText?_nearest.2.1 ['-'] true _ _ .minus hw
  have hread : ofText? ('-' :: "9007199254740993".toList) =
      some (.signed true ⟨0x4340000000000000, by decide⟩) := by decide +kernel
  cases hm.symm.trans hread
  exact ⟨hw, hnear⟩

end Number

end Lox
