import Lox.Proofs.Cursor

/-!
# The end of input

What a session shows in its calls is what a cursor shows that goes over the whole list by index
(`Tape.trace_eq`), although the session has cut the list at the first token for the end of input
and the cursor serves an end that the last token gives. So a list shows the same as the list sealed
with its end (`Session.trace_sealed`), and nothing behind a token for the end of input is read.
-/

namespace Lox

/-- What is seen of a reader between two calls. -/
structure View where
  position : Nat
  atEnd : Bool
  peek : Token
  reports : List Diagnostic

namespace Session

def view (s : Session) : View := ⟨s.position, s.isAtEnd, s.peek, s.reports⟩

/-- What the calls answer, and what is seen after each of them. -/
def steps (s : Session) : List Action → List (Option (Except ParseError Expr) × View)
  | [] => []
  | a :: as => (s.answer a, (s.act a).view) :: (s.act a).steps as

/-- What is seen before the first call, and the steps from there. -/
def trace (s : Session) (actions : List Action) :
    View × List (Option (Except ParseError Expr) × View) :=
  (s.view, s.steps actions)

end Session

namespace Tape

open Session (Action)

/-- What a call answers, and the cursor after it. -/
def act (t : Tape) (k : Cursor) : Action → Option (Option (Except ParseError Expr) × Cursor)
  | .parse => (t.parse k).map fun (result, k) => (some result, k)
  | .synchronize => (t.synchronize k).map fun k => (none, k)

def view (t : Tape) (k : Cursor) : View := ⟨k.index, t.isAtEnd k, t.peek k, k.reports⟩

def steps (t : Tape) (k : Cursor) :
    List Action → Option (List (Option (Except ParseError Expr) × View))
  | [] => some []
  | a :: as => do
    let (answer, k) ← t.act k a
    let later ← steps t k as
    some ((answer, t.view k) :: later)

def trace (t : Tape) (actions : List Action) :
    Option (View × List (Option (Except ParseError Expr) × View)) :=
  (t.steps .start actions).map (t.view .start, ·)

variable {t : Tape} {k : Cursor} {s : Session}

/-- A cursor that stands where a session stands, with the same reports. -/
structure Follows (t : Tape) (k : Cursor) (s : Session) : Prop extends
    s.Over t.limits t.tokens where
  index_eq : k.index = s.position
  reports_eq : k.reports = s.reports

theorem follows_start (t : Tape) : t.Follows .start (Session.start t.limits t.tokens) :=
  ⟨Session.over_start _ _, rfl, rfl⟩

theorem Follows.suffix (h : t.Follows k s) : s.rest <:+ t.before := by
  rw [Session.rest, h.tokens_eq]
  exact List.drop_suffix _ _

/-- The counters of the cursor may be what an earlier parse has left. -/
theorem Follows.eq_cursor (h : t.Follows k s) (n m : Nat) :
    { k with nesting := n, height := m } = t.cursor ⟨s.rest, n, m, s.reports⟩ := by
  have hlen := h.toOver.position_add_length_rest
  have hindex : k.index = t.before.length - s.rest.length := by
    rw [h.index_eq, before]
    omega
  rw [cursor, hindex, h.reports_eq]

theorem Follows.of_cursor {f : ParseState} (hs : s.Over t.limits t.tokens) (hr : s.rest = f.rest)
    (hf : s.reports = f.reports) : t.Follows (t.cursor f) s := by
  have hlen := hs.position_add_length_rest
  refine ⟨hs, ?_, hf.symm⟩
  rw [hr] at hlen
  show t.before.length - f.rest.length = s.position
  rw [before]
  omega

theorem Follows.view_eq (h : t.Follows k s) : t.view k = s.view := by
  have hpeek : t.peek k = s.peek := by
    have hk := peek_cursor (t := t) (s := ⟨s.rest, k.nesting, k.height, s.reports⟩) h.suffix
    rw [← h.eq_cursor] at hk
    rw [hk, Session.peek, h.setting_eq]
    rfl
  rw [view, Session.view, isAtEnd, Session.isAtEnd, hpeek, h.index_eq, h.reports_eq]

theorem Follows.parse (h : t.Follows k s) :
    ∃ k', t.parse k = some (s.parse.1, k') ∧ t.Follows k' s.parse.2 := by
  obtain ⟨f, hr, hrest, hreports⟩ := s.reads_parse
  rw [h.setting_eq] at hr
  refine ⟨t.cursor f, ?_, .of_cursor (h.toOver.act .parse) hrest hreports⟩
  rw [Tape.parse, h.eq_cursor]
  exact read_cursor hr h.suffix

theorem Follows.synchronize (h : t.Follows k s) :
    ∃ k', t.synchronize k = some k' ∧ t.Follows k' s.synchronize := by
  have hover := h.toOver.act .synchronize
  have hk : k = t.cursor ⟨s.rest, k.nesting, k.height, s.reports⟩ := h.eq_cursor _ _
  have hs := h.suffix
  rcases hr : s.rest with _ | ⟨x, xs⟩ <;> rw [hr] at hk hs
  · have hend : t.isAtEnd k := by
      rw [hk, isAtEnd_cursor hs]
      rfl
    rw [Session.synchronize_eq_self hr, Tape.synchronize, advance, if_pos hend, skip, if_pos hend]
    exact ⟨k, rfl, h⟩
  · rw [Tape.synchronize, hk, advance_cursor hs rfl, skip_cursor hs rfl]
    exact ⟨_, rfl, .of_cursor hover (Session.rest_synchronize hr) (Session.reports_synchronize s)⟩

theorem Follows.act (h : t.Follows k s) (a : Action) :
    ∃ k', t.act k a = some (s.answer a, k') ∧ t.Follows k' (s.act a) := by
  cases a with
  | parse =>
    obtain ⟨k', hk', h'⟩ := h.parse
    exact ⟨k', by rw [Tape.act, hk']; rfl, h'⟩
  | synchronize =>
    obtain ⟨k', hk', h'⟩ := h.synchronize
    exact ⟨k', by rw [Tape.act, hk']; rfl, h'⟩

theorem Follows.steps (h : t.Follows k s) (actions : List Action) :
    t.steps k actions = some (s.steps actions) := by
  induction actions generalizing k s with
  | nil => rfl
  | cons a as ih =>
    obtain ⟨k', hk', h'⟩ := h.act a
    rw [Tape.steps, hk']
    simp only [Option.bind_eq_bind, Option.bind_some, ih h', h'.view_eq]
    rfl

/-- A cursor over the whole list comes to an end in every call and shows what a session shows. -/
theorem trace_eq (t : Tape) (actions : List Action) :
    t.trace actions = some ((Session.start t.limits t.tokens).trace actions) := by
  have h := t.follows_start
  rw [trace, h.steps, h.view_eq]
  rfl

end Tape

namespace Session

/-- The tokens up to the first that is for the end of input. Where there is none, one for the line
of the last token, or else for the first line, is put behind them. -/
def sealed (tokens : List Token) : List Token :=
  if tokens.any Token.isEof then tokens.take (tokens.findIdx Token.isEof + 1)
  else tokens ++ [Token.eof ((tokens.getLast?.map Token.line).getD 1)]

theorem sealed_eq (tokens : List Token) :
    sealed tokens = tokens.takeWhile (!·.isEof) ++ [finalToken tokens] := by
  rw [sealed, finalToken]
  split_ifs with h
  · obtain ⟨u, hu⟩ : ∃ u, tokens.find? Token.isEof = some u :=
      Option.isSome_iff_exists.1 (List.find?_isSome.2 (List.any_eq_true.1 h))
    have hcut : tokens.takeWhile (!·.isEof) = tokens.take (tokens.findIdx Token.isEof) := by
      simp only [List.takeWhile_eq_take_findIdx_not, Bool.not_not]
    rw [List.take_add_one, ← List.find?_eq_getElem?_findIdx, hu, hcut]
    rfl
  · have hno : tokens.find? Token.isEof = none := by simpa using h
    have hall : tokens.takeWhile (!·.isEof) = tokens := by simpa using h
    rw [hno, hall, Option.getD_none]

example : sealed [.ofKeyword .nilWord, ⟨.eof, "end", none, 3⟩, .ofMark .plus, .eof 4] =
    [.ofKeyword .nilWord, ⟨.eof, "end", none, 3⟩] := by decide

theorem start_sealed (limits : Limits) (tokens : List Token) :
    start limits (sealed tokens) = start limits tokens := by
  have hno : ∀ u ∈ tokens.takeWhile (!·.isEof), !u.isEof := fun u =>
    List.all_eq_true.1 List.all_takeWhile u
  rw [sealed_eq, start_append_eof limits hno (finalToken_isEof tokens)]
  rfl

/-- Nothing behind a token for the end of input plays a part. -/
theorem start_append_cons_eof (limits : Limits) (before after : List Token) {eof : Token}
    (h : eof.isEof) : start limits (before ++ eof :: after) = start limits (before ++ [eof]) := by
  have hcut (ts : List Token) : (eof :: ts).takeWhile (!·.isEof) = [] :=
    List.takeWhile_cons_of_neg (by simp [h])
  have hfinal (ts : List Token) : finalToken (before ++ eof :: ts) =
      (before.find? Token.isEof).getD eof := by
    rw [finalToken, List.find?_append, List.find?_cons_of_pos h]
    cases before.find? Token.isEof <;> rfl
  simp only [start, hfinal, List.takeWhile_append, hcut]

section Over

variable {limits : Limits} {tokens : List Token} {s : Session}

theorem Over.getElem?_sealed (h : s.Over limits tokens) :
    (sealed tokens)[s.position]? = some s.peek := by
  have hlen := h.position_add_length_rest
  have hhead : (tokens.takeWhile (!·.isEof))[s.position]? = s.rest.head? := by
    rw [rest, h.tokens_eq, List.head?_drop]
  rw [sealed_eq, peek, h.setting_eq]
  rcases hr : s.rest with _ | ⟨u, us⟩ <;> rw [hr] at hlen hhead
  · rw [List.length_nil, Nat.add_zero] at hlen
    rw [hlen, List.getElem?_concat_length, List.headD_nil]
  · rw [List.length_cons] at hlen
    rw [List.getElem?_append_left (by omega), hhead, List.head?_cons, List.headD_cons]

theorem Over.of_mem_steps (h : s.Over limits tokens) {actions : List Action}
    {step : Option (Except ParseError Expr) × View} (hm : step ∈ s.steps actions) :
    ∃ s' : Session, s'.Over limits tokens ∧ step.2 = s'.view := by
  induction actions generalizing s with
  | nil => cases hm
  | cons a as ih =>
    rcases List.mem_cons.1 hm with rfl | hm
    · exact ⟨_, h.act a, rfl⟩
    · exact ih (h.act a) hm

end Over

/-- By index or in a session, tokens show in every call what they show when they are sealed. All
that is seen stands in the sealed list, and so no further than at the first token for the end of
input; what stands behind such a token may be anything. -/
theorem trace_sealed (limits : Limits) (tokens : List Token) (actions : List Action) :
    let shown := (start limits tokens).trace actions
    (Tape.mk limits tokens).trace actions = some shown ∧
      (Tape.mk limits (sealed tokens)).trace actions = some shown ∧
      (start limits (sealed tokens)).trace actions = shown ∧
      (∀ v ∈ shown.1 :: shown.2.map Prod.snd,
        v.position ≤ (tokens.takeWhile (!·.isEof)).length ∧
          (sealed tokens)[v.position]? = some v.peek) ∧
      ∀ (before after after' : List Token) (eof : Token), eof.isEof →
        tokens = before ++ eof :: after →
        (Tape.mk limits (before ++ eof :: after')).trace actions = some shown := by
  intro shown
  refine ⟨Tape.trace_eq _ _, ?_, ?_, fun v hv => ?_, ?_⟩
  · rw [Tape.trace_eq, start_sealed]
  · rw [start_sealed]
  · obtain ⟨s, hs, rfl⟩ : ∃ s : Session, s.Over limits tokens ∧ v = s.view := by
      rcases List.mem_cons.1 hv with rfl | hv
      · exact ⟨_, over_start _ _, rfl⟩
      · obtain ⟨step, hstep, rfl⟩ := List.mem_map.1 hv
        exact (over_start limits tokens).of_mem_steps hstep
    exact ⟨hs.tokens_eq ▸ hs.position_le, hs.getElem?_sealed⟩
  · rintro before after after' eof heof rfl
    rw [Tape.trace_eq, start_append_cons_eof _ _ _ heof, ← start_append_cons_eof _ _ after heof]

end Session

end Lox
