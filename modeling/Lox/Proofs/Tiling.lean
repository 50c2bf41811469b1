import Lox.Source.Tile

/-!
# The one way to cut a text into tiles

`Tile.Fits` says of each class which pieces of text are tiles before what follows them: a run of
blanks, a number, a word and a mark as long as the text allows, a comment up to the next newline, a
string up to the next quote. Where nothing fits, one character is stray. A `Tiling` is a text cut
into tiles that stand in it one after the other.

No two tiles can begin at the same place, and `Tile.next` finds the one that does, so that a text
has one tiling only (`Tile.tiling_iff`).
-/

namespace Lox

namespace Tile

/-- A text of some class before `rest`, and of that class no longer with any more of it. -/
def Longest (p : List Char → Prop) (text rest : List Char) : Prop :=
  p text ∧ ∀ more, more ≠ [] → more <+: rest → ¬ p (text ++ more)

def IsBlanks (text : List Char) : Prop := text ≠ [] ∧ ∀ c ∈ text, isBlank c

def IsDigits (text : List Char) : Prop := text ≠ [] ∧ ∀ c ∈ text, c.isDigit

/-- Digits, or digits on both sides of a dot. -/
def IsNumber (text : List Char) : Prop :=
  ∃ whole, IsDigits whole ∧ (text = whole ∨ ∃ part, IsDigits part ∧ text = whole ++ '.' :: part)

def IsWord (text : List Char) : Prop :=
  ∃ c cs, text = c :: cs ∧ startsWord c ∧ ∀ d ∈ cs, continuesWord d

/-- A mark, or what a comment begins with. -/
def IsSign (text : List Char) : Prop := text = ['/', '/'] ∨ ∃ m : Mark, text = m.text.toList

/-- Whether a tile of a class other than the stray characters stands before `rest`. -/
def Fits : Tile → (rest : List Char) → Prop
  | blanks run, rest => Longest IsBlanks run rest
  | newline, _ => True
  | comment body, rest => '\n' ∉ body ∧ ∀ c ∈ rest.head?, c = '\n'
  | string body, _ => '"' ∉ body
  | openString body, rest => '"' ∉ body ∧ rest = []
  | number digits, rest => Longest IsNumber digits rest
  | word letters, rest => Longest IsWord letters rest
  | mark m, rest => Longest IsSign m.text.toList rest
  | stray _, _ => False

/-- Whether a tile stands before `rest`; a stray character does where no other tile fits. -/
def Stands (t : Tile) (rest : List Char) : Prop :=
  t.Fits rest ∨ ∃ c, t = stray c ∧
    ∀ (t' : Tile) (rest' : List Char), t'.text ++ rest' = c :: rest → ¬ t'.Fits rest'

inductive Tiling : (text : List Char) → List Tile → Prop
  | nil : Tiling [] []
  | cons {t : Tile} {rest : List Char} {ts : List Tile} : t.Stands rest → Tiling rest ts →
      Tiling (t.text ++ rest) (t :: ts)

section Pieces

variable {p : List Char → Prop} {q : Char → Bool} {c : Char} {text rest : List Char}

theorem Longest.unique {a b r s : List Char} (h : Longest p a r) (h' : Longest p b s)
    (he : a ++ r = b ++ s) : a = b ∧ r = s := by
  rcases List.append_eq_append_iff.1 he with ⟨more, rfl, rfl⟩ | ⟨more, rfl, rfl⟩
  · rcases more with _ | ⟨x, xs⟩
    · simp
    · exact absurd h'.1 (h.2 _ (by simp) (List.prefix_append _ _))
  · rcases more with _ | ⟨x, xs⟩
    · simp
    · exact absurd h.1 (h'.2 _ (by simp) (List.prefix_append _ _))

/-- What is cut off goes up to the first character outside the class. -/
theorem cut_append_of_all {body : List Char} (h : ∀ d ∈ body, q d)
    (hr : ∀ d ∈ rest.head?, q d = false) : cut q (body ++ rest) = (body, rest) := by
  rw [cut, List.takeWhile_append_of_pos h, List.dropWhile_append_of_pos h]
  rcases rest with _ | ⟨d, ds⟩
  · simp
  · simp [hr d rfl]

/-- Up to a character. -/
theorem cut_before {body : List Char} (h : c ∉ body) (hr : ∀ d ∈ rest.head?, d = c) :
    cut (· != c) (body ++ rest) = (body, rest) := by
  refine cut_append_of_all (fun d hd => ?_) fun d hd => by simp [hr d hd]
  simp only [bne_iff_ne, ne_eq]
  rintro rfl
  exact h hd

theorem all_cut : ∀ d ∈ (cut q text).1, q d := List.all_eq_true.1 List.all_takeWhile

theorem not_mem_cut : c ∉ (cut (· != c) text).1 := fun hc => by simpa using all_cut c hc

theorem head_cut : ∀ d ∈ (cut q text).2.head?, q d = false := by
  intro d hd
  have hnot := List.head?_dropWhile_not q text
  rw [cut, Option.mem_def] at hd
  simpa [hd] using hnot

theorem head_of_begins {more : List Char} {d : Char} (h : d ∈ more.head?) (hm : more <+: rest) :
    d ∈ rest.head? := by
  obtain ⟨ds, rfl⟩ := List.head?_eq_some_iff.1 h
  obtain ⟨after, rfl⟩ := hm
  rfl

theorem longest_cut (h : ∀ cs, p (c :: cs) ↔ ∀ d ∈ cs, q d) :
    Longest p (c :: (cut q text).1) (cut q text).2 := by
  refine ⟨(h _).2 all_cut, fun more hne hm hp => ?_⟩
  obtain ⟨x, xs, rfl⟩ := List.exists_cons_of_ne_nil hne
  have hx : q x := (h _).1 hp x (by simp)
  rw [head_cut x (head_of_begins rfl hm)] at hx
  exact Bool.false_ne_true hx

theorem isBlanks_cons (h : isBlank c) (cs : List Char) :
    IsBlanks (c :: cs) ↔ ∀ d ∈ cs, isBlank d := by
  simp [IsBlanks, h]

theorem isWord_cons (h : startsWord c) (cs : List Char) :
    IsWord (c :: cs) ↔ ∀ d ∈ cs, continuesWord d := by
  constructor
  · rintro ⟨c', cs', he, -, hcs⟩
    cases he
    exact hcs
  · exact fun hcs => ⟨c, cs, rfl, h, hcs⟩

end Pieces

section Numbers

variable {d : Char} {text rest digits more : List Char}

theorem IsNumber.isDigit_head {c : Char} {cs : List Char} (h : IsNumber (c :: cs)) :
    c.isDigit := by
  obtain ⟨whole, hw, he⟩ := h
  obtain ⟨x, xs, rfl⟩ := List.exists_cons_of_ne_nil hw.1
  have hx : c = x := by
    rcases he with he | ⟨part, -, he⟩ <;> exact (List.cons.inj he).1
  exact hx ▸ hw.2 x List.mem_cons_self

theorem IsNumber.ne_nil (h : IsNumber text) : text ≠ [] := by
  obtain ⟨whole, hw, rfl | ⟨part, -, rfl⟩⟩ := h
  · exact hw.1
  · simp

/-- After digits only a dot and digits can go on with a number. -/
theorem IsNumber.part (h : IsNumber (digits ++ more)) (hd : ∀ c ∈ digits, c.isDigit)
    (hne : more ≠ []) (hm : ∀ c ∈ more.head?, c.isDigit = false) :
    ∃ part, IsDigits part ∧ more = '.' :: part := by
  obtain ⟨whole, hw, he | ⟨part, hp, he⟩⟩ := h
  · obtain ⟨x, xs, rfl⟩ := List.exists_cons_of_ne_nil hne
    have hx := hw.2 x (he ▸ by simp)
    rw [hm x rfl] at hx
    exact absurd hx Bool.false_ne_true
  · have hcut := congrArg (cut Char.isDigit) he
    rw [cut_append_of_all hd hm, cut_append_of_all hw.2 (by simp)] at hcut
    cases hcut
    exact ⟨part, hp, rfl⟩

theorem isDigits_cut (hd : d.isDigit) (text : List Char) :
    IsDigits (d :: (cut Char.isDigit text).1) :=
  ⟨by simp, List.forall_mem_cons.2 ⟨hd, all_cut⟩⟩

theorem fraction_cases (text : List Char) :
    (∃ part, IsDigits part ∧ (fraction text).1 = '.' :: part ∧
        ∀ c ∈ (fraction text).2.head?, c.isDigit = false) ∨
      (fraction text = ([], text) ∧ ∀ part, IsDigits part → ¬ '.' :: part <+: text) := by
  unfold fraction
  split
  · rename_i d rest
    split
    · rename_i hd
      exact .inl ⟨_, isDigits_cut hd _, rfl, head_cut⟩
    · rename_i hd
      refine .inr ⟨rfl, fun part hp ⟨after, ha⟩ => ?_⟩
      obtain ⟨x, xs, rfl⟩ := List.exists_cons_of_ne_nil hp.1
      cases ha
      exact hd (hp.2 d (by simp))
  · rename_i hno
    refine .inr ⟨rfl, fun part hp ⟨after, ha⟩ => ?_⟩
    obtain ⟨x, xs, rfl⟩ := List.exists_cons_of_ne_nil hp.1
    exact hno x (xs ++ after) ha.symm

theorem fits_nextNumber (hd : d.isDigit) : (nextNumber d text).1.Fits (nextNumber d text).2 := by
  have hdigits := isDigits_cut hd text
  show Longest _ (d :: (cut Char.isDigit text).1 ++ (fraction (cut Char.isDigit text).2).1)
    (fraction (cut Char.isDigit text).2).2
  rcases fraction_cases (cut Char.isDigit text).2 with ⟨part, hp, he, hhead⟩ | ⟨he, hno⟩
  · rw [he]
    refine ⟨⟨_, hdigits, .inr ⟨part, hp, rfl⟩⟩, fun more hne hm hn => ?_⟩
    obtain ⟨y, ys, rfl⟩ := List.exists_cons_of_ne_nil hne
    rw [List.append_assoc] at hn
    obtain ⟨part', hp', he'⟩ := hn.part hdigits.2 (by simp) (by simp)
    cases he'
    have hy : y.isDigit := hp'.2 y (by simp)
    rw [hhead y (head_of_begins rfl hm)] at hy
    exact Bool.false_ne_true hy
  · rw [he, List.append_nil]
    refine ⟨⟨_, hdigits, .inl rfl⟩, fun more hne hm hn => ?_⟩
    obtain ⟨part, hp, rfl⟩ := hn.part hdigits.2 hne fun c hc => head_cut c (head_of_begins hc hm)
    exact hno part hp hm

end Numbers

section Signs

variable {c : Char} {text rest : List Char}

theorem text_length_le (m : Mark) : m.text.toList.length ≤ 2 := by cases m <;> decide

theorem ofText?_eq_none {cs : List Char} (h : Mark.ofText? (String.ofList cs) = none) (m : Mark) :
    m.text.toList ≠ cs := by
  rintro rfl
  rw [String.ofList_toList, Mark.ofText?_text] at h
  cases h

/-- Without a comment, the next sign is a mark as long as possible, or there is none. -/
theorem nextMark_cases (h : ¬ (c = '/' ∧ text.head? = some '/')) :
    (∃ m rest, nextMark c text = (mark m, rest) ∧ (mark m).Fits rest) ∨
      nextMark c text = (stray c, text) ∧
        ∀ (m : Mark) (rest : List Char), m.text.toList ++ rest ≠ c :: text := by
  unfold nextMark
  split
  · rename_i m hm
    obtain ⟨d, hd, hm⟩ := Option.bind_eq_some_iff.1 hm
    have htext : m.text.toList = [c, d] := by simp [Mark.text_of_ofText? hm]
    refine .inl ⟨m, _, rfl, .inr ⟨m, rfl⟩, fun more hne _ hp => ?_⟩
    -- no sign has more than two characters
    obtain ⟨x, xs, rfl⟩ := List.exists_cons_of_ne_nil hne
    rw [htext] at hp
    rcases hp with he | ⟨m', he⟩
    · cases he
    · have hle := text_length_le m'
      simp [← he] at hle
  · rename_i htwo
    have hno : ∀ (m : Mark) d ds, text = d :: ds → m.text.toList ≠ [c, d] := by
      rintro m d ds rfl
      exact ofText?_eq_none htwo m
    split
    · rename_i m hm
      have htext : m.text.toList = [c] := by simp [Mark.text_of_ofText? hm]
      refine .inl ⟨m, _, rfl, .inr ⟨m, rfl⟩, fun more hne ⟨after, ha⟩ hp => ?_⟩
      obtain ⟨x, xs, rfl⟩ := List.exists_cons_of_ne_nil hne
      rw [htext] at hp
      rcases hp with he | ⟨m', he⟩
      · cases he
        exact h ⟨rfl, by simp [← ha]⟩
      · have hle := text_length_le m'
        obtain rfl : xs = [] := by simpa [← he] using hle
        exact hno m' x after ha.symm he.symm
    · rename_i hone
      refine .inr ⟨rfl, fun m rest he => ?_⟩
      have hle := text_length_le m
      have hne : m.text.toList ≠ [] := by simp [Mark.text_ne_empty]
      rcases hm : m.text.toList with _ | ⟨x, _ | ⟨y, _ | ⟨z, zs⟩⟩⟩ <;> rw [hm] at he hle hne
      · exact hne rfl
      · cases he
        exact ofText?_eq_none hone m hm
      · cases he
        exact hno m y rest rfl hm
      · simp at hle

end Signs

section Next

variable {c : Char} {text rest : List Char} {t : Tile}

theorem next_blank (h : isBlank c) :
    next c text = (blanks (c :: (cut isBlank text).1), (cut isBlank text).2) := by
  simp [next, h]

theorem next_digit (h : c.isDigit) : next c text = nextNumber c text := by
  have hno : ∀ d : Char, d.isDigit = false → c ≠ d := fun d hd he => by simp [← he, h] at hd
  have hb : isBlank c = false := by simp [isBlank, hno]
  simp [next, hb, h, hno]

theorem isDigit_of_startsWord (h : startsWord c) : c.isDigit = false := by
  refine Bool.eq_false_iff.2 fun hd => ?_
  have hle : c.toNat ≤ 57 := (Char.isDigit_iff_toNat.1 hd).2
  rcases Bool.or_eq_true_iff.1 h with halpha | hline
  · have hge : 65 ≤ c.toNat := by
      rcases Bool.or_eq_true_iff.1 halpha with hupper | hlower
      · have h65 := (of_decide_eq_true hupper).1
        exact UInt32.le_iff_toNat_le.1 h65
      · have h97 := of_decide_eq_true (Bool.and_eq_true_iff.1 hlower).1
        exact Nat.le_trans (by decide) (UInt32.le_iff_toNat_le.1 h97)
    omega
  · rw [beq_iff_eq.1 hline] at hle
    exact absurd hle (by decide)

theorem next_word (h : startsWord c) :
    next c text = (word (c :: (cut continuesWord text).1), (cut continuesWord text).2) := by
  have hno : ∀ d : Char, startsWord d = false → c ≠ d := fun d hd he => by simp [← he, h] at hd
  have hb : isBlank c = false := by
    simp only [isBlank, Bool.or_eq_false_iff, beq_eq_false_iff_ne]
    exact ⟨⟨hno _ rfl, hno _ rfl⟩, hno _ rfl⟩
  simp [next, hb, h, hno '\n' rfl, hno '/' rfl, hno '"' rfl, isDigit_of_startsWord h]

theorem next_mark {m : Mark} (hm : m.text.toList ++ rest = c :: text)
    (h : ¬ (c = '/' ∧ text.head? = some '/')) : next c text = nextMark c text := by
  have hc : isBlank c = false ∧ c ≠ '\n' ∧ c ≠ '"' ∧ c.isDigit = false ∧ startsWord c = false := by
    cases m <;> cases hm <;> decide
  simp [next, h, hc]

/-- A longest piece is the one that the next tile takes, if the tile is of its class. -/
theorem Longest.next_eq {p : List Char → Prop} {f : List Char → Tile} {a b r s : List Char}
    (h : Longest p a r) (hf : ∀ l, (f l).text = l) (ha : a ++ r = c :: text)
    (hn : next c text = (f b, s)) (h' : Longest p b s) : next c text = (f a, r) := by
  have htext := text_next c text
  rw [hn, hf] at htext
  obtain ⟨rfl, rfl⟩ := h.unique h' (ha.trans htext.symm)
  exact hn

/-- What fits is the next tile. -/
theorem Fits.next_eq (h : t.Fits rest) (ht : t.text ++ rest = c :: text) :
    next c text = (t, rest) := by
  cases t with
  | blanks run =>
    obtain ⟨x, xs, rfl⟩ := List.exists_cons_of_ne_nil h.1.1
    cases ht
    have hc : isBlank c := h.1.2 c (by simp)
    exact h.next_eq (fun _ => rfl) rfl (next_blank hc) (longest_cut (isBlanks_cons hc))
  | newline =>
    cases ht
    rfl
  | comment body =>
    cases ht
    obtain ⟨hb, hr⟩ := h
    simp [next, isBlank, cut_before hb hr]
  | string body =>
    have hcut : cut (· != '"') (body ++ '"' :: rest) = (body, '"' :: rest) :=
      cut_before h (by simp)
    simp only [Tile.text, List.cons_append, List.append_assoc, List.nil_append,
      List.cons.injEq] at ht
    obtain ⟨rfl, rfl⟩ := ht
    simp [next, isBlank, nextString, hcut]
  | openString body =>
    obtain ⟨hb, rfl⟩ := h
    have hcut : cut (· != '"') (body ++ []) = (body, []) := cut_before hb (by simp)
    simp only [Tile.text, List.append_nil, List.cons.injEq] at ht hcut
    obtain ⟨rfl, rfl⟩ := ht
    simp [next, isBlank, nextString, hcut]
  | number digits =>
    obtain ⟨x, xs, rfl⟩ := List.exists_cons_of_ne_nil h.1.ne_nil
    cases ht
    have hd := h.1.isDigit_head
    exact h.next_eq (fun _ => rfl) rfl (next_digit hd) (fits_nextNumber hd)
  | word letters =>
    obtain ⟨x, xs, rfl, hx, -⟩ := h.1
    cases ht
    exact h.next_eq (fun _ => rfl) rfl (next_word hx) (longest_cut (isWord_cons hx))
  | mark m =>
    have hno : ¬ (c = '/' ∧ text.head? = some '/') := by
      rintro ⟨rfl, hs⟩
      obtain ⟨ts, rfl⟩ := List.head?_eq_some_iff.1 hs
      cases m <;> cases ht
      exact h.2 ['/'] (by simp) ⟨ts, rfl⟩ (.inl rfl)
    have hn := next_mark ht hno
    rcases nextMark_cases hno with ⟨m', rest', hm, hf⟩ | ⟨-, hnone⟩
    · have htext := text_nextMark c text
      rw [hm] at htext
      obtain ⟨he, rfl⟩ := h.unique hf (ht.trans htext.symm)
      have hsome := Mark.ofText?_text m
      rw [String.toList_injective he, Mark.ofText?_text] at hsome
      cases hsome
      rw [hn, hm]
    · exact absurd ht (hnone m rest)
  | stray _ => exact h.elim

theorem fits_nextString (text : List Char) : (nextString text).1.Fits (nextString text).2 := by
  have hno : '"' ∉ (cut (· != '"') text).1 := not_mem_cut
  unfold nextString
  split
  · rename_i body hcut
    rw [hcut] at hno
    exact ⟨hno, rfl⟩
  · rename_i body _ rest hcut
    rw [hcut] at hno
    exact hno

theorem fits_next (c : Char) (text : List Char) :
    (next c text).1.Fits (next c text).2 ∨ next c text = (stray c, text) := by
  unfold next
  split
  · exact .inl (longest_cut (isBlanks_cons ‹_›))
  split
  · exact .inl trivial
  split
  · exact .inl ⟨not_mem_cut, fun d hd => by simpa using head_cut d hd⟩
  split
  · exact .inl (fits_nextString text)
  split
  · exact .inl (fits_nextNumber ‹_›)
  split
  · exact .inl (longest_cut (isWord_cons ‹_›))
  · rcases nextMark_cases ‹_› with ⟨m, rest, hm, hf⟩ | ⟨hm, -⟩
    · exact .inl (by rwa [hm])
    · exact .inr hm

theorem stands_next (c : Char) (text : List Char) : (next c text).1.Stands (next c text).2 := by
  rcases fits_next c text with h | h
  · exact .inl h
  · refine .inr ⟨c, by rw [h], fun t rest ht hf => ?_⟩
    rw [h] at ht
    have hn := hf.next_eq ht
    cases h.symm.trans hn
    exact hf

theorem Stands.next_eq (h : t.Stands rest) (ht : t.text ++ rest = c :: text) :
    next c text = (t, rest) := by
  rcases h with h | ⟨d, rfl, hno⟩
  · exact h.next_eq ht
  · cases ht
    rcases fits_next c rest with h | h
    · exact absurd h (hno _ _ (text_next c rest))
    · exact h

theorem Stands.text_ne_nil (h : t.Stands rest) : t.text ≠ [] := by
  rcases h with h | ⟨c, rfl, -⟩
  · cases t with
    | blanks run => exact h.1.1
    | newline | comment | string | openString => simp [Tile.text]
    | number digits => exact h.1.ne_nil
    | word letters =>
      obtain ⟨c, cs, rfl, -⟩ := h.1
      simp [Tile.text]
    | mark m => simp [Tile.text, Mark.text_ne_empty]
    | stray _ => exact h.elim
  · simp [Tile.text]

theorem tiling_all (text : List Char) : Tiling text (all text) := by
  fun_induction all text with
  | case1 => exact .nil
  | case2 c text ih =>
    have h := Tiling.cons (stands_next c text) ih
    rwa [text_next] at h

theorem Tiling.eq_all {ts : List Tile} (h : Tiling text ts) : ts = all text := by
  induction h with
  | nil => rw [all]
  | @cons t rest ts hs _ ih =>
    obtain ⟨c, cs, hc⟩ := List.exists_cons_of_ne_nil hs.text_ne_nil
    rw [hc, List.cons_append, all, hs.next_eq (by rw [hc]; rfl), ih]

/-- A text has one tiling. -/
theorem tiling_iff {ts : List Tile} : Tiling text ts ↔ ts = all text :=
  ⟨Tiling.eq_all, fun h => h ▸ tiling_all text⟩

end Next

end Tile

end Lox
