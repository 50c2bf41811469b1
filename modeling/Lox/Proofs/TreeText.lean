import Lox.Proofs.ReadBack
import Lox.Proofs.Respelled
import Lox.Proofs.Verdict

/-!
# What the text of a tree tells

The trees of a source without strings are `Expr.Plain`: their literals are words and numbers without
sign, and their operators are marks as they are spelled. No blank or bracket stands in the text of
such a literal, so that it ends where the first of these follows, and an operator's text ends with
the operands, of which the blank or the bracket behind the first one tells the number. So a tree is
found again in any text that begins with its own, but for the lines of its operators
(`Expr.Plain.unique`).
-/

namespace Lox

/-- The spelling of a mark, on any line. -/
structure Token.IsMark (t : Token) (m : Mark) : Prop where
  kind_eq : t.kind = .mark m
  lexeme_eq : t.lexeme = m.text
  literal_eq : t.literal = none

/-- A word or a number without sign. -/
inductive Value.Plain : Value → Prop
  | nil : Plain .nil
  | bool (b : Bool) : Plain (.bool b)
  | number (m : Magnitude) : Plain (.number (.signed false m))

theorem Token.IsMark.beq_iff {op op' : Token} {m m' : Mark} (h : op.IsMark m)
    (h' : op'.IsMark m') : op == op' ↔ op = op' := by
  rw [Token.beq_iff]
  constructor
  · rintro ⟨hk, hlexeme, -, hline⟩
    cases op
    cases op'
    simp only [Token.mk.injEq]
    exact ⟨hk, hlexeme, h.literal_eq.trans h'.literal_eq.symm, hline⟩
  · rintro rfl
    rw [h.literal_eq]
    exact ⟨rfl, rfl, rfl, rfl⟩

theorem Token.IsMark.offLine_eq {op op' : Token} {m : Mark} (h : op.IsMark m)
    (h' : op'.IsMark m) : { op with line := 0 } = { op' with line := 0 } := by
  rw [h.kind_eq, h.lexeme_eq, h.literal_eq, h'.kind_eq, h'.lexeme_eq, h'.literal_eq]

namespace Expr

/-- No literal of the tree is a string. -/
def StringFree : Expr → Prop
  | literal v => ∀ s, v ≠ .string s
  | unary _ e => e.StringFree
  | binary left _ right => left.StringFree ∧ right.StringFree
  | group e => e.StringFree

/-- The tree with its operators moved to one line. -/
def offLines : Expr → Expr
  | literal v => literal v
  | unary op e => unary { op with line := 0 } e.offLines
  | binary left op right => binary left.offLines { op with line := 0 } right.offLines
  | group e => group e.offLines

/-- A tree of plain literals and marks. -/
inductive Plain : Expr → Prop
  | literal {v : Value} : v.Plain → Plain (.literal v)
  | unary {op : Token} {m : Mark} {e : Expr} : op.IsMark m → Plain e → Plain (.unary op e)
  | binary {left right : Expr} {op : Token} {m : Mark} : Plain left → op.IsMark m → Plain right →
      Plain (.binary left op right)
  | group {e : Expr} : Plain e → Plain (.group e)

end Expr

section Literals

/-- No blank and no bracket. -/
def isSolid (c : Char) : Bool := c != ' ' && c != '(' && c != ')'

/-- A literal ends before what follows. -/
def Ends (rest : List Char) : Prop := ∀ c ∈ rest.head?, isSolid c = false

theorem ends_nil : Ends [] := nofun

theorem ends_blank (rest : List Char) : Ends (' ' :: rest) := by simp [Ends, isSolid]

theorem ends_close (rest : List Char) : Ends (')' :: rest) := by simp [Ends, isSolid]

theorem isSolid_of_isDigit {c : Char} (h : c.isDigit) : isSolid c := by
  simp only [isSolid, Bool.and_eq_true, bne_iff_ne]
  refine ⟨⟨?_, ?_⟩, ?_⟩ <;> rintro rfl <;> cases h

theorem Magnitude.isSolid_text (m : Magnitude) : m.text ≠ [] ∧ m.text.all isSolid := by
  by_cases hf : m.isFinite
  · obtain ⟨whole, part, hw, hp, htext, -⟩ := isPoint_text hf
    have hsolid {digits : List Char} (hd : Tile.IsDigits digits) : digits.all isSolid :=
      List.all_eq_true.2 fun c hc => isSolid_of_isDigit (hd.2 c hc)
    rw [htext, List.all_append, List.all_cons, hsolid hw, hsolid hp]
    exact ⟨by simp, rfl⟩
  · rw [eq_infinity hf]
    decide

namespace Value.Plain

variable {v v' : Value}

theorem isSolid_text (h : v.Plain) : v.text.toList ≠ [] ∧ v.text.toList.all isSolid := by
  cases h with
  | nil => decide
  | bool b => cases b <;> decide
  | number m =>
    rw [Value.text, Number.text_positive, String.toList_ofList]
    exact m.isSolid_text

/-- A number is told from the words, and from other numbers, by what its text is read as. -/
theorem eq_of_text_eq (h : v.Plain) (h' : v'.Plain) (ht : v.text = v'.text) : v = v' := by
  have hread (m : Magnitude) : Number.ofText? (Number.signed false m).text.toList =
      some (.signed false m) := Number.ofText?_text rfl
  have hword (m : Magnitude) {w : String} (hw : Number.ofText? w.toList = none) :
      (Number.signed false m).text ≠ w := by
    intro he
    rw [← he, hread] at hw
    cases hw
  cases h with
  | nil =>
    cases h' with
    | nil => rfl
    | bool b =>
      revert b
      decide
    | number m => exact absurd ht.symm (hword m (by decide))
  | bool b =>
    cases h' with
    | nil =>
      revert b
      decide
    | bool b' =>
      revert b b'
      decide
    | number m =>
      refine absurd ht.symm (hword m ?_)
      cases b <;> decide
  | number m =>
    cases h' with
    | nil => exact absurd ht (hword m (by decide))
    | bool b =>
      refine absurd ht (hword m ?_)
      cases b <;> decide
    | number m' =>
      have htext : (Number.signed false m).text = (Number.signed false m').text := ht
      rw [Option.some.inj ((hread m).symm.trans (htext ▸ hread m'))]

theorem beq_iff (h : v.Plain) (h' : v'.Plain) : v == v' ↔ v = v' := by
  refine ⟨fun hb => ?_, fun he => he ▸ BEq.rfl⟩
  cases h with
  | nil =>
    cases h' with
    | nil => rfl
    | bool | number => cases hb
  | bool b =>
    cases h' with
    | bool b' => rw [show b = b' from eq_of_beq hb]
    | nil | number => cases hb
  | number m =>
    cases h' with
    | number m' =>
      have hrank : m.rank == m'.rank := (Bool.and_eq_true_iff.1 hb).1
      rw [Magnitude.eq_of_rank_eq (eq_of_beq hrank)]
    | nil | bool => cases hb

end Value.Plain

end Literals

section Cutting

variable {head head' body body' rest rest' : List Char}

theorem append_inj_of_all {q : Char → Bool} (h : head.all q) (h' : head'.all q)
    (hr : ∀ c ∈ rest.head?, q c = false) (hr' : ∀ c ∈ rest'.head?, q c = false)
    (he : head ++ rest = head' ++ rest') : head = head' ∧ rest = rest' := by
  have hcut := congrArg (Tile.cut q) he
  rw [Tile.cut_append_of_all (List.all_eq_true.1 h) hr,
    Tile.cut_append_of_all (List.all_eq_true.1 h') hr'] at hcut
  exact Prod.mk.inj hcut

/-- What stands before the first blank, and what after it. -/
theorem blank_inj (h : head.all (· != ' ')) (h' : head'.all (· != ' '))
    (he : head ++ ' ' :: body = head' ++ ' ' :: body') : head = head' ∧ body = body' := by
  obtain ⟨hhead, hbody⟩ := append_inj_of_all h h' (by simp) (by simp) he
  exact ⟨hhead, (List.cons.inj hbody).2⟩

theorem Mark.ne_blank (m : Mark) : m.text.toList.all (· != ' ') := by cases m <;> decide

theorem Mark.text_ne_group (m : Mark) : m.text.toList ≠ "group".toList := by cases m <;> decide

theorem Mark.eq_of_toList_eq {m m' : Mark} (h : m.text.toList = m'.text.toList) : m = m' := by
  have htext := Mark.ofText?_text m
  rw [String.toList_inj.1 h, Mark.ofText?_text] at htext
  exact (Option.some.inj htext).symm

theorem Value.Plain.ne_open {v : Value} (h : v.Plain) : v.text.toList ++ rest ≠ '(' :: body := by
  obtain ⟨hne, hsolid⟩ := h.isSolid_text
  obtain ⟨c, cs, hc⟩ := List.exists_cons_of_ne_nil hne
  rw [hc] at hsolid ⊢
  intro he
  rw [(List.cons.inj he).1] at hsolid
  exact Bool.false_ne_true hsolid

end Cutting

namespace Expr

variable {e e' : Expr} {head body rest rest' : List Char}

theorem toList_unary (op : Token) (e : Expr) (rest : List Char) :
    (unary op e).text.toList ++ rest =
      '(' :: (op.lexeme.toList ++ ' ' :: (e.text.toList ++ ')' :: rest)) := by
  simp [text]

theorem toList_binary (left : Expr) (op : Token) (right : Expr) (rest : List Char) :
    (binary left op right).text.toList ++ rest = '(' :: (op.lexeme.toList ++ ' ' ::
      (left.text.toList ++ ' ' :: (right.text.toList ++ ')' :: rest))) := by
  simp [text]

theorem toList_group (e : Expr) (rest : List Char) : (group e).text.toList ++ rest =
    '(' :: ("group".toList ++ ' ' :: (e.text.toList ++ ')' :: rest)) := by
  simp [text]

/-- A text that begins with a bracket is that of an operator or of a group, and what stands before
the first blank says of which. -/
theorem Plain.of_open (h : e.Plain) (hh : head.all (· != ' '))
    (he : '(' :: (head ++ ' ' :: body) = e.text.toList ++ rest) :
    (∃ op m inner, e = .unary op inner ∧ op.IsMark m ∧ inner.Plain ∧ head = m.text.toList ∧
      body = inner.text.toList ++ ')' :: rest) ∨
    (∃ left op m right, e = .binary left op right ∧ left.Plain ∧ op.IsMark m ∧ right.Plain ∧
      head = m.text.toList ∧
      body = left.text.toList ++ ' ' :: (right.text.toList ++ ')' :: rest)) ∨
    ∃ inner, e = .group inner ∧ inner.Plain ∧ head = "group".toList ∧
      body = inner.text.toList ++ ')' :: rest := by
  cases h with
  | literal hv => exact absurd he.symm hv.ne_open
  | @unary op m inner hop hinner =>
    rw [toList_unary, hop.lexeme_eq] at he
    obtain ⟨hhead, hbody⟩ := blank_inj hh m.ne_blank (List.cons.inj he).2
    exact .inl ⟨op, m, inner, rfl, hop, hinner, hhead, hbody⟩
  | @binary left right op m hleft hop hright =>
    rw [toList_binary, hop.lexeme_eq] at he
    obtain ⟨hhead, hbody⟩ := blank_inj hh m.ne_blank (List.cons.inj he).2
    exact .inr (.inl ⟨left, op, m, right, rfl, hleft, hop, hright, hhead, hbody⟩)
  | @group inner hinner =>
    rw [toList_group] at he
    obtain ⟨hhead, hbody⟩ := blank_inj hh (by decide) (List.cons.inj he).2
    exact .inr (.inr ⟨inner, rfl, hinner, hhead, hbody⟩)

/-- A tree is found again in a text that begins with its own, but for its operators' lines, and so
is what follows. -/
theorem Plain.unique (h : e.Plain) (h' : e'.Plain) (hr : Ends rest) (hr' : Ends rest')
    (he : e.text.toList ++ rest = e'.text.toList ++ rest') :
    e.offLines = e'.offLines ∧ rest = rest' := by
  induction h generalizing e' rest rest' with
  | @literal v hv =>
    cases h' with
    | @literal v' hv' =>
      obtain ⟨htext, hrest⟩ :=
        append_inj_of_all hv.isSolid_text.2 hv'.isSolid_text.2 hr hr' he
      rw [hv.eq_of_text_eq hv' (String.toList_inj.1 htext)]
      exact ⟨rfl, hrest⟩
    | unary => exact absurd (he.trans (toList_unary _ _ _)) hv.ne_open
    | binary => exact absurd (he.trans (toList_binary _ _ _ _)) hv.ne_open
    | group => exact absurd (he.trans (toList_group _ _)) hv.ne_open
  | @unary op m inner hop _ ih =>
    rw [toList_unary, hop.lexeme_eq] at he
    rcases h'.of_open m.ne_blank he with ⟨op', m', inner', rfl, hop', hinner', hm, hb⟩ |
      ⟨left', op', m', right', rfl, hleft', -, -, -, hb⟩ | ⟨inner', rfl, -, hm, -⟩
    · obtain ⟨hinner, hrest⟩ := ih hinner' (ends_close _) (ends_close _) hb
      obtain rfl := Mark.eq_of_toList_eq hm
      rw [offLines, offLines, hinner, hop.offLine_eq hop']
      exact ⟨rfl, (List.cons.inj hrest).2⟩
    -- behind the one operand stands a bracket, and behind the first of two a blank
    · obtain ⟨-, hrest⟩ := ih hleft' (ends_close _) (ends_blank _) hb
      cases hrest
    · exact absurd hm m.text_ne_group
  | @binary left right op m _ hop _ ihl ihr =>
    rw [toList_binary, hop.lexeme_eq] at he
    rcases h'.of_open m.ne_blank he with ⟨op', m', inner', rfl, -, hinner', -, hb⟩ |
      ⟨left', op', m', right', rfl, hleft', hop', hright', hm, hb⟩ | ⟨inner', rfl, -, hm, -⟩
    · obtain ⟨-, hrest⟩ := ihl hinner' (ends_blank _) (ends_close _) hb
      cases hrest
    · obtain ⟨hleft, hb⟩ := ihl hleft' (ends_blank _) (ends_blank _) hb
      obtain ⟨hright, hrest⟩ :=
        ihr hright' (ends_close _) (ends_close _) (List.cons.inj hb).2
      obtain rfl := Mark.eq_of_toList_eq hm
      rw [offLines, offLines, hleft, hright, hop.offLine_eq hop']
      exact ⟨rfl, (List.cons.inj hrest).2⟩
    · exact absurd hm m.text_ne_group
  | @group inner _ ih =>
    rw [toList_group] at he
    rcases h'.of_open (by decide) he with ⟨op', m', inner', rfl, -, -, hm, -⟩ |
      ⟨left', op', m', right', rfl, -, -, -, hm, -⟩ | ⟨inner', rfl, hinner', -, hb⟩
    · exact absurd hm.symm m'.text_ne_group
    · exact absurd hm.symm m'.text_ne_group
    · obtain ⟨hinner, hrest⟩ := ih hinner' (ends_close _) (ends_close _) hb
      rw [offLines, offLines, hinner]
      exact ⟨rfl, (List.cons.inj hrest).2⟩

theorem text_offLines (e : Expr) : e.offLines.text = e.text := by
  induction e with
  | literal => rfl
  | unary op e ih | group e ih => simp only [offLines, text, ih]
  | binary left op right ihl ihr => simp only [offLines, text, ihl, ihr]

theorem Plain.offLines (h : e.Plain) : e.offLines.Plain := by
  induction h with
  | literal hv => exact .literal hv
  | unary hop _ ih => exact .unary ⟨hop.kind_eq, hop.lexeme_eq, hop.literal_eq⟩ ih
  | binary _ hop _ ihl ihr =>
    exact .binary ihl ⟨hop.kind_eq, hop.lexeme_eq, hop.literal_eq⟩ ihr
  | group _ ih => exact .group ih

/-- Among plain trees `==` does not take two for one. -/
theorem Plain.beq_iff (h : e.Plain) (h' : e'.Plain) : e == e' ↔ e = e' := by
  constructor
  · intro hb
    induction h generalizing e' with
    | literal hv =>
      cases h' with
      | literal hv' => rw [(hv.beq_iff hv').1 hb]
      | unary | binary | group => cases hb
    | unary hop _ ih =>
      cases h' with
      | unary hop' he' =>
        obtain ⟨hops, he⟩ := Bool.and_eq_true_iff.1 hb
        rw [(hop.beq_iff hop').1 hops, ih he' he]
      | literal | binary | group => cases hb
    | binary _ hop _ ihl ihr =>
      cases h' with
      | binary hl' hop' hr' =>
        obtain ⟨hl, hb⟩ := Bool.and_eq_true_iff.1 hb
        obtain ⟨hops, hr⟩ := Bool.and_eq_true_iff.1 hb
        rw [ihl hl' hl, (hop.beq_iff hop').1 hops, ihr hr' hr]
      | literal | unary | group => cases hb
    | group _ ih =>
      cases h' with
      | group he' => rw [ih he' hb]
      | literal | unary | binary => cases hb
  · rintro rfl
    clear h'
    induction h with
    | literal hv => exact (hv.beq_iff hv).2 rfl
    | unary hop _ ih => exact Bool.and_eq_true_iff.2 ⟨(hop.beq_iff hop).2 rfl, ih⟩
    | binary _ hop _ ihl ihr =>
      exact Bool.and_eq_true_iff.2
        ⟨ihl, Bool.and_eq_true_iff.2 ⟨(hop.beq_iff hop).2 rfl, ihr⟩⟩
    | group _ ih => exact ih

end Expr

section Sources

variable {source : String} {t : Token} {v : Value} {e : Expr}

theorem Scan.isMark {m : Mark} (h : t ∈ (ofSource source).tokens) (hk : t.kind = .mark m) :
    t.IsMark m := by
  have hne : t.kind ≠ .eof := by rw [hk]; exact nofun
  obtain ⟨line, tile, rest, -, hreads, hlexeme, -⟩ := exists_gives h hne
  rw [hk] at hreads
  generalize hl : t.literal = literal at hreads
  cases hreads
  exact ⟨hk, String.toList_inj.1 hlexeme, hl⟩

/-- The operands of a source are plain but for its strings. -/
theorem Scan.plain_of_denotes (h : t ∈ (ofSource source).tokens) (hv : t.Denotes v)
    (hs : ∀ s, v ≠ .string s) : v.Plain := by
  cases hv with
  | nil => exact .nil
  | true | false => exact .bool _
  | @literal l hk hl =>
    rcases hk with hk | hk
    · obtain ⟨-, -, -, m, hm, -⟩ := number_nearest h hk
      obtain rfl := Option.some.inj (hl.symm.trans hm)
      exact .number m
    · cases l with
      | string s => exact absurd rfl (hs s)
      | number n =>
        have hne : t.kind ≠ .eof := by rw [hk]; exact nofun
        obtain ⟨line, tile, rest, -, hreads, -, -⟩ := exists_gives h hne
        rw [hk, hl] at hreads
        cases hreads
  | numeral hk hl =>
    obtain ⟨-, -, -, m, hm, -⟩ := number_nearest h hk
    rw [hl] at hm
    cases hm
  | quoted => exact absurd rfl (hs _)

/-- What the tokens of a source spell is plain if there is no string in it. -/
theorem Expr.Spells.plain {ts : List Token} (h : e.Spells ts) (hg : e.Grammatical)
    (hs : e.StringFree) (ht : ∀ t ∈ ts, t ∈ (Scan.ofSource source).tokens) : e.Plain := by
  induction h with
  | literal hv => exact .literal (Scan.plain_of_denotes (ht _ List.mem_cons_self) hv hs)
  | unary _ ih =>
    obtain ⟨hop, -, hg⟩ := hg
    obtain ⟨hmem, ht⟩ := List.forall_mem_cons.1 ht
    obtain ⟨m, hm⟩ := Kind.exists_mark (.inl hop)
    exact .unary (Scan.isMark hmem hm) (ih hg hs ht)
  | binary _ _ ihl ihr =>
    obtain ⟨l, hop, -, -, hgl, hgr⟩ := hg
    obtain ⟨htl, ht⟩ := List.forall_mem_append.1 ht
    obtain ⟨hmem, htr⟩ := List.forall_mem_cons.1 ht
    obtain ⟨m, hm⟩ := Kind.exists_mark (.inr (by rw [hop]; rfl))
    exact .binary (ihl hgl hs.1 htl) (Scan.isMark hmem hm) (ihr hgr hs.2 htr)
  | group _ _ _ ih =>
    refine .group (ih hg hs fun t hmem => ht t ?_)
    exact List.mem_cons_of_mem _ (List.mem_append_left _ hmem)

theorem plain_of_parseSource {σ : Type} [Sink σ] {sink : σ}
    (h : (parseSource source sink).1 = .ok e) (hs : e.StringFree) : e.Plain := by
  obtain ⟨hparse, -⟩ := sourceResult_eq_ok_iff.1 h
  have hover := Session.over_start .standard (Scan.ofSource source).tokens
  obtain ⟨n, hl⟩ := Session.leads_of_parse (Prod.ext hparse rfl)
  have hl := hover.leads_iff.1 hl
  exact hl.spells.plain hl.grammatical hs fun t ht => List.mem_of_mem_drop (List.mem_of_mem_take ht)

/-- The trees of sources, if there is no string in them, have the same text exactly if they are
equal but for the lines of their operators; and of such trees `==` does not take two for one. -/
theorem parseSource_text_eq_iff {σ τ : Type} [Sink σ] [Sink τ] {source source' : String} {sink : σ}
    {sink' : τ} {e e' : Expr} (h : (parseSource source sink).1 = .ok e)
    (h' : (parseSource source' sink').1 = .ok e') (hs : e.StringFree) (hs' : e'.StringFree) :
    (e.text = e'.text ↔ e.offLines == e'.offLines) ∧
      (e.offLines == e'.offLines ↔ e.offLines = e'.offLines) := by
  have hp := plain_of_parseSource h hs
  have hp' := plain_of_parseSource h' hs'
  have hbeq := hp.offLines.beq_iff hp'.offLines
  refine ⟨⟨fun ht => hbeq.2 ?_, fun hb => ?_⟩, hbeq⟩
  · exact (hp.unique hp' ends_nil ends_nil (congrArg (·.toList ++ []) ht)).1
  · rw [← e.text_offLines, hbeq.1 hb, e'.text_offLines]

/-- A minus and a number with nothing else around them. -/
theorem parseSource_negation {lexeme : String} {n : Number} {line : Nat}
    (h : Scan.ofSource source = ⟨[⟨.mark .minus, "-", none, line⟩,
      ⟨.number, lexeme, some (.number n), line⟩, Token.eof line], []⟩) :
    (parseSource source ([] : List Diagnostic)).1 =
      .ok (.unary ⟨.mark .minus, "-", none, line⟩ (.literal (.number n))) := by
  let e : Expr := .unary ⟨.mark .minus, "-", none, line⟩ (.literal (.number n))
  have hg : e.Grammatical := ⟨rfl, Nat.zero_le _, trivial⟩
  have hs : e.Spells [⟨.mark .minus, "-", none, line⟩,
      ⟨.number, lexeme, some (.number n), line⟩] :=
    .unary (.literal (.literal (l := .number n) (.inl rfl) rfl))
  have hno : ∀ t ∈ [Token.eof line].head?, ¬ t.kind.isBinaryOperator := by
    rintro t ⟨rfl⟩
    exact Bool.false_ne_true
  have ha : Limits.standard.Admits e 0 0 := ⟨by decide, by decide, trivial⟩
  have hparse := Session.parse_of_admits (Session.leads_start .standard hg hs hno) ha
  refine sourceResult_eq_ok_iff.2 ⟨?_, by rw [h]; rfl⟩
  show (parseTokens (Scan.ofSource source).tokens).1 = .ok e
  rw [h]
  exact congrArg Prod.fst hparse

/-- The same number, written otherwise on another line. -/
theorem parseSource_text_eq_iff_moved : ∃ e e',
    (parseSource "-1.0" ([] : List Diagnostic)).1 = .ok e ∧
      (parseSource "\n-1" ([] : List Diagnostic)).1 = .ok e' ∧ e ≠ e' ∧ e.text = e'.text := by
  have hnumber : Tile.IsNumber ['1'] := ⟨['1'], by simp [Tile.IsDigits], .inl rfl⟩
  have hnumber' : Tile.IsNumber ['1', '.', '0'] :=
    ⟨['1'], by simp [Tile.IsDigits], .inr ⟨['0'], by simp [Tile.IsDigits], rfl⟩⟩
  let n : Number := .signed false (.ofRatio 1 1)
  have hread : Number.ofText? ['1'] = some n := by decide +kernel
  have hread' : Number.ofText? ['1', '.', '0'] = some n := by decide +kernel
  have hscan : Scan.ofSource "-1.0" = ⟨[⟨.mark .minus, "-", none, 1⟩,
      ⟨.number, "1.0", some (.number n), 1⟩, Token.eof 1], []⟩ := by
    show Scan.ofText ['-', '1', '.', '0'] = _
    rw [Scan.ofText_eq_onward, Scan.onward_minus, Scan.onward_number hnumber' hread']
    rfl
  have hscan' : Scan.ofSource "\n-1" = ⟨[⟨.mark .minus, "-", none, 2⟩,
      ⟨.number, "1", some (.number n), 2⟩, Token.eof 2], []⟩ := by
    show Scan.ofText ['\n', '-', '1'] = _
    rw [Scan.ofText_eq_onward, Scan.onward_newline, Scan.onward_minus,
      Scan.onward_number hnumber hread]
    rfl
  have h := parseSource_negation hscan
  have h' := parseSource_negation hscan'
  have hiff := parseSource_text_eq_iff h h' nofun nofun
  refine ⟨_, _, h, h', by simp, hiff.1.2 (hiff.2.2 rfl)⟩

end Sources

end Lox
