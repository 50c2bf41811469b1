import Lox.Proofs.Recovery
import Mathlib.Order.Bounds.Defs

/-!
# Where a broken statement ends

A boundary between statements is an index of the tokens as they were given: behind a semicolon,
before a word that starts a statement, and wherever no token stands or one for the end of input.
`synchronize` looks at the token it has taken and at the one it comes to, and so finds the first
boundary behind the token where it began (`Session.synchronize_next_boundary`), which is not the
boundary that it may have stood at.
-/

namespace Lox

/-- The words that start a statement. -/
def Kind.statementWords : List Kind :=
  [.keyword .classWord, .keyword .funWord, .keyword .varWord, .keyword .forWord,
    .keyword .ifWord, .keyword .whileWord, .keyword .printWord, .keyword .returnWord]

theorem Kind.startsStatement_iff_mem {k : Kind} : k.startsStatement ↔ k ∈ statementWords := by
  rcases k with m | w | _ | _ | _ | _
  · simp [startsStatement, statementWords]
  · cases w <;> decide
  all_goals decide

/-- An index where one statement can end and another begin. -/
inductive Boundary (tokens : List Token) : Nat → Prop
  | atEnd {i : Nat} : (∀ t ∈ tokens[i]?, t.isEof) → Boundary tokens i
  | semicolon {i : Nat} {t : Token} : tokens[i]? = some t → t.kind = .mark .semicolon →
      Boundary tokens (i + 1)
  | word {i : Nat} {t : Token} : tokens[i]? = some t → t.kind ∈ Kind.statementWords →
      Boundary tokens i

namespace Boundary

variable {tokens ts : List Token} {t u : Token} {i : Nat}

/-- Only the first index loses sight of the token before it. -/
theorem drop_iff (p : Nat) : Boundary (tokens.drop p) (i + 1) ↔ Boundary tokens (i + p + 1) := by
  have hget (j : Nat) : (tokens.drop p)[j]? = tokens[j + p]? := by
    rw [List.getElem?_drop, Nat.add_comm]
  have hnext : i + 1 + p = i + p + 1 := Nat.add_right_comm i 1 p
  constructor
  · intro h
    cases h with
    | atEnd h => exact .atEnd (hnext ▸ hget _ ▸ h)
    | semicolon ht hk => exact .semicolon (hget i ▸ ht) hk
    | word ht hk => exact .word (hnext ▸ hget _ ▸ ht) hk
  · intro h
    cases h with
    | atEnd h => exact .atEnd (by rwa [hget, hnext])
    | semicolon ht hk => exact .semicolon (by rwa [hget]) hk
    | word ht hk => exact .word (by rwa [hget, hnext]) hk

/-- What `synchronize` asks of the two tokens it looks at. -/
theorem one_iff : Boundary (u :: t :: ts) 1 ↔
    t.isEof ∨ u.kind = .mark .semicolon ∨ t.kind.startsStatement := by
  constructor
  · intro h
    cases h with
    | atEnd h => exact .inl (h t rfl)
    | semicolon ht hk =>
      cases ht
      exact .inr (.inl hk)
    | word ht hk =>
      cases ht
      exact .inr (.inr (Kind.startsStatement_iff_mem.2 hk))
  · rintro (ht | hk | hk)
    · refine .atEnd fun v hv => ?_
      cases hv
      exact ht
    · exact .semicolon rfl hk
    · exact .word rfl (Kind.startsStatement_iff_mem.1 hk)

end Boundary

namespace Session

theorem isLeast_statementRest {ts after : List Token} (taken : Token)
    (hno : ∀ t ∈ ts, !t.isEof) (heof : ∀ t ∈ after.head?, t.isEof) :
    IsLeast {n | Boundary (taken :: (ts ++ after)) (n + 1)} (statementRest taken ts) := by
  -- each step leaves behind the token taken before, which no later boundary depends on
  induction ts generalizing taken with
  | nil =>
    refine ⟨.atEnd fun t ht => heof t ?_, fun n _ => Nat.zero_le n⟩
    rwa [List.head?_eq_getElem?]
  | cons t ts ih =>
    obtain ⟨ht, hno⟩ := List.forall_mem_cons.1 hno
    obtain ⟨hmem, hleast⟩ := ih t hno
    have hshift (n : Nat) : Boundary (taken :: (t :: ts ++ after)) (n + 1 + 1) ↔
        Boundary (t :: (ts ++ after)) (n + 1) := (Boundary.drop_iff 1).symm
    rw [statementRest]
    split_ifs with hstop
    · exact ⟨Boundary.one_iff.2 (.inr hstop), fun n _ => Nat.zero_le n⟩
    · refine ⟨(hshift _).2 hmem, fun n hn => ?_⟩
      cases n with
      | zero => exact absurd (Boundary.one_iff.1 hn) (not_or.2 ⟨by simpa using ht, hstop⟩)
      | succ n => exact Nat.succ_le_succ (hleast ((hshift n).1 hn))

variable {limits : Limits} {tokens : List Token} {s : Session}

theorem Over.isAtEnd_iff_getElem? (h : s.Over limits tokens) :
    s.isAtEnd ↔ ∀ t ∈ tokens[s.position]?, t.isEof := by
  obtain ⟨after, hd, heof⟩ := h.drop_eq
  rw [h.isAtEnd_iff, ← List.head?_drop, hd]
  rcases hr : s.rest with _ | ⟨t, ts⟩
  · exact iff_of_true rfl heof
  · have ht := h.not_isEof t (hr ▸ List.mem_cons_self)
    exact iff_of_false (List.cons_ne_nil t ts) fun h => by simp [h t rfl] at ht

theorem Over.synchronize_eq (h : s.Over limits tokens) (hs : ¬ s.isAtEnd) :
    ∃ q, s.synchronize = { s with position := q } ∧
      IsLeast {q | s.position < q ∧ Boundary tokens q} q := by
  obtain ⟨after, hd, heof⟩ := h.drop_eq
  obtain ⟨t, ts, hr⟩ := List.exists_cons_of_ne_nil fun hr => hs (h.isAtEnd_iff.2 hr)
  have hno : ∀ u ∈ ts, !u.isEof := fun u hu =>
    h.not_isEof u (hr ▸ List.mem_cons_of_mem t hu)
  obtain ⟨hmem, hleast⟩ := isLeast_statementRest t hno heof
  have hbehind (n : Nat) : Boundary (t :: (ts ++ after)) (n + 1) ↔
      Boundary tokens (n + s.position + 1) := by
    rw [← Boundary.drop_iff, hd, hr, List.cons_append]
  have hq : s.position + 1 + statementRest t ts = statementRest t ts + s.position + 1 := by omega
  refine ⟨s.position + 1 + statementRest t ts, by simp only [synchronize, hr], ?_, ?_⟩
  · exact ⟨by omega, hq ▸ (hbehind _).1 hmem⟩
  · rintro q ⟨hlt, hb⟩
    obtain ⟨n, rfl⟩ := Nat.exists_eq_add_of_lt hlt
    rw [Nat.add_comm s.position n] at hb
    have hle := hleast ((hbehind n).2 hb)
    omega

/-- At the end of input `synchronize` does nothing. From anywhere else it goes to the first boundary
behind the token it stands at, and nothing else changes. -/
theorem synchronize_next_boundary (limits : Limits) (tokens : List Token)
    (actions : List Action) :
    let s := (start limits tokens).run actions
    (s.isAtEnd ↔ ∀ t ∈ tokens[s.position]?, t.isEof) ∧
      (s.isAtEnd → s.synchronize = s) ∧
      (¬ s.isAtEnd → ∃ q, s.synchronize = { s with position := q } ∧
        IsLeast {q | s.position < q ∧ Boundary tokens q} q) := by
  intro s
  have h : s.Over limits tokens := over_run limits tokens actions
  exact ⟨h.isAtEnd_iff_getElem?, fun hs => synchronize_eq_self (h.isAtEnd_iff.1 hs),
    h.synchronize_eq⟩

/-- A word that starts a statement does not stop the call that begins on it. -/
example : (start .standard [.ofKeyword .varWord, .ofKeyword .nilWord, .ofMark .semicolon,
    .ofKeyword .nilWord]).synchronize.position = 3 := by decide

end Session

end Lox
