import Lox.Proofs.Height
import Lox.Proofs.Tiling
import Lox.Source.Parse

/-!
# Trees beyond the limit

A session accepts the tree that comes next exactly if its nestings and its charge keep to the
limits, and the tree has at most 1024 levels then if no left side of an operator is taller than its
chain is long (`Session.parse_height`). But a chain's first operand is read before any of its
operators, and charged for none of them: a chain of 1024 factors in a chain of terms, which is 1025
levels tall, passes for one of 1024 (`Session.parse_too_tall`).

`Expr.tower` goes as far as the counters allow, with four chains around one another at each of the
129 nestings, and comes to the height of 495488 (`Session.parse_tallest`).
-/

namespace Lox

namespace Expr

section Tower

/-- A chain of `k` operators, all the same, with `nil` for every operand but the first. -/
def row (m : Mark) : (k : Nat) → (first : Expr) → Expr
  | 0, first => first
  | k + 1, first => binary (row m k first) (.ofMark m) (literal .nil)

/-- Four chains of `k` operators, each the first operand of the next. -/
def rows (k : Nat) (first : Expr) : Expr :=
  row .equalEqual k (row .less k (row .plus k (row .star k first)))

/-- Four chains in brackets, as the first operand of four chains, `m` times over. -/
def tower : (m k : Nat) → Expr
  | 0, k => rows k (literal .nil)
  | m + 1, k => rows k (group (tower m (k - 1)))

variable {m : Mark} {l : Level} {k : Nat} {e : Expr}

theorem height_row : (row m k e).height = e.height + k := by
  induction k with
  | zero => rfl
  | succ k ih =>
    simp only [row, height, ih]
    omega

theorem nesting_row : (row m k e).nesting = e.nesting := by
  induction k with
  | zero => rfl
  | succ k ih => simp [row, nesting, ih]

theorem folds_row (h : m.level? = some l) :
    (row m k e).folds (some l) = e.folds (some l) + k := by
  induction k with
  | zero => rfl
  | succ k ih =>
    rw [row, folds, if_pos (by simpa [Token.ofMark, Kind.level?] using h), ih]
    omega

/-- A chain on top of what binds tighter costs no more levels than it has operators. -/
theorem row_spec (h : m.level? = some l) (ht : e.tier < (Rule.chain l).rank) (hc : e.charge ≤ k)
    (hg : e.Grammatical) : ∀ j ≤ k, (row m j e).tier ≤ (Rule.chain l).rank ∧
      (row m j e).charge ≤ k ∧ (row m j e).Grammatical := by
  intro j
  induction j with
  | zero => exact fun _ => ⟨Nat.le_of_lt ht, hc, hg⟩
  | succ j ih =>
    intro hj
    obtain ⟨htj, hcj, hgj⟩ := ih (Nat.le_of_succ_le hj)
    have hf : (row m j e).folds (some l) = j := by
      rw [folds_row h, folds_of_tier_lt ht, Nat.zero_add]
    have hl : (Token.ofMark m).kind.level? = some l := h
    refine ⟨Nat.le_of_eq (tier_binary h), ?_, l, h, htj, Rule.rank_chain_pos l, hgj, trivial⟩
    simp only [row, charge, hl, hf, Nat.max_le]
    exact ⟨hcj, by omega⟩

theorem rows_spec (ht : e.tier ≤ 1) (hc : e.charge ≤ k) (hg : e.Grammatical) :
    (rows k e).Grammatical ∧ (rows k e).charge ≤ k ∧ (rows k e).nesting = e.nesting ∧
      (rows k e).height = e.height + 4 * k := by
  have hk := Nat.le_refl k
  obtain ⟨ht, hc, hg⟩ := row_spec (m := .star) (l := .factor) rfl (Nat.lt_succ_of_le ht) hc hg k hk
  obtain ⟨ht, hc, hg⟩ := row_spec (m := .plus) (l := .term) rfl (Nat.lt_succ_of_le ht) hc hg k hk
  obtain ⟨ht, hc, hg⟩ :=
    row_spec (m := .less) (l := .comparison) rfl (Nat.lt_succ_of_le ht) hc hg k hk
  obtain ⟨ht, hc, hg⟩ :=
    row_spec (m := .equalEqual) (l := .equality) rfl (Nat.lt_succ_of_le ht) hc hg k hk
  refine ⟨hg, hc, ?_, ?_⟩
  · simp only [rows, nesting_row]
  · simp only [rows, height_row]
    omega

/-- A tower is as tall as a tree can be that nests and is charged as much. -/
theorem tower_spec {m k : Nat} (h : m ≤ k) : (tower m k).Grammatical ∧ (tower m k).charge ≤ k ∧
    (tower m k).nesting = m ∧ (tower m k).height = 4 * k + tallest m k := by
  induction m generalizing k with
  | zero =>
    obtain ⟨hg, hc, hn, hh⟩ := rows_spec (e := literal .nil) (k := k) (by decide) (Nat.zero_le _)
      trivial
    exact ⟨hg, hc, hn, by simp [tower, hh, height, tallest]⟩
  | succ m ih =>
    obtain ⟨hg, hc, hn, hh⟩ := ih (k := k - 1) (by omega)
    obtain ⟨hg, hc', hn', hh'⟩ := rows_spec (e := group (tower m (k - 1))) (k := k)
      (by simp [tier]) (by simp only [charge]; omega) hg
    refine ⟨hg, hc', by simp [tower, hn', nesting, hn], ?_⟩
    simp only [tower, hh', height, hh, tallest]
    omega

end Tower

theorem exists_spells (e : Expr) : ∃ ts, e.Spells ts := by
  induction e with
  | literal v =>
    cases v with
    | nil => exact ⟨[.ofKeyword .nilWord], .literal (.nil rfl)⟩
    | bool b =>
      cases b
      · exact ⟨[.ofKeyword .falseWord], .literal (.false rfl)⟩
      · exact ⟨[.ofKeyword .trueWord], .literal (.true rfl)⟩
    | number n =>
      exact ⟨[⟨.number, "", some (.number n), 1⟩],
        .literal (.literal (l := .number n) (.inl rfl) rfl)⟩
    | string s =>
      exact ⟨[⟨.string, "", some (.string s), 1⟩],
        .literal (.literal (l := .string s) (.inr rfl) rfl)⟩
  | unary op e ih =>
    obtain ⟨ts, hs⟩ := ih
    exact ⟨_, .unary hs⟩
  | binary left op right ihl ihr =>
    obtain ⟨ls, hls⟩ := ihl
    obtain ⟨rs, hrs⟩ := ihr
    exact ⟨_, .binary hls hrs⟩
  | group e ih =>
    obtain ⟨ts, hs⟩ := ih
    have hg : (group e).Spells (.ofMark .leftParen :: ts ++ [.ofMark .rightParen]) :=
      .group rfl rfl hs
    exact ⟨_, hg⟩

end Expr

section Source

open Lox.Tile Lox.Expr

def nilTile : Tile := .word "nil".toList

/-- The text of a chain after its first operand, if `nil` is every other. -/
def links (m : Mark) (k : Nat) : List Char :=
  (List.replicate k (m.text.toList ++ "nil".toList)).flatten

def linkTiles (m : Mark) (k : Nat) : List Tile := (List.replicate k [.mark m, nilTile]).flatten

def linkTokens (m : Mark) (k : Nat) : List Token :=
  (List.replicate k [.ofMark m, .ofKeyword .nilWord]).flatten

variable {m : Mark} {k : Nat} {text : List Char}

theorem links_succ : links m (k + 1) ++ text =
    m.text.toList ++ ("nil".toList ++ (links m k ++ text)) := by
  simp [links, List.replicate_succ]

theorem head_links (hm : m = .star ∨ m = .plus)
    (h : ∀ c ∈ text.head?, continuesWord c = false) :
    ∀ c ∈ (links m k ++ text).head?, continuesWord c = false := by
  cases k with
  | zero => exact h
  | succ k =>
    intro c hc
    rw [links_succ] at hc
    rcases hm with rfl | rfl <;> cases hc <;> rfl

theorem all_nil (h : ∀ c ∈ text.head?, continuesWord c = false) :
    all ("nil".toList ++ text) = nilTile :: all text := by
  have hcut : cut continuesWord (['i', 'l'] ++ text) = (['i', 'l'], text) :=
    cut_append_of_all (List.forall_mem_cons.2 ⟨rfl, List.forall_mem_cons.2 ⟨rfl, by simp⟩⟩) h
  show all ('n' :: (['i', 'l'] ++ text)) = _
  rw [all, next_word rfl, hcut]
  rfl

theorem all_links (hm : m = .star ∨ m = .plus) (h : ∀ c ∈ text.head?, continuesWord c = false) :
    all (links m k ++ text) = linkTiles m k ++ all text := by
  induction k with
  | zero => rfl
  | succ k ih =>
    have hmark : ∀ more, all (m.text.toList ++ ("nil".toList ++ more)) =
        .mark m :: all ("nil".toList ++ more) := by
      intro more
      rcases hm with rfl | rfl
      · show all ('*' :: ("nil".toList ++ more)) = _
        rw [all]
        rfl
      · show all ('+' :: ("nil".toList ++ more)) = _
        rw [all]
        rfl
    rw [links_succ, hmark, all_nil (head_links hm h), ih]
    rfl

/-- What tiles on the first line give. -/
def given (ts : List Tile) : List Token × List Diagnostic :=
  ((placed 1 ts).filterMap fun (line, t) => t.token? line,
    (placed 1 ts).filterMap fun (line, t) => t.diagnostic? line)

theorem given_links (hm : m = .star ∨ m = .plus) (ts : List Tile) :
    given (linkTiles m k ++ ts) = (linkTokens m k ++ (given ts).1, (given ts).2) := by
  induction k with
  | zero => rfl
  | succ k ih =>
    have hcons : ∀ ts, given (.mark m :: nilTile :: ts) =
        (.ofMark m :: .ofKeyword .nilWord :: (given ts).1, (given ts).2) := by
      rcases hm with rfl | rfl <;> exact fun _ => rfl
    show given (.mark m :: nilTile :: (linkTiles m k ++ ts)) = _
    rw [hcons, ih]
    rfl

theorem linkTokens_succ :
    linkTokens m (k + 1) = linkTokens m k ++ [.ofMark m, .ofKeyword .nilWord] := by
  simp [linkTokens, List.replicate_succ']

theorem spells_row {e : Expr} {ts : List Token} (h : e.Spells ts) :
    (row m k e).Spells (ts ++ linkTokens m k) := by
  induction k with
  | zero => simpa [row, linkTokens] using h
  | succ k ih =>
    have hnil : (literal .nil).Spells [.ofKeyword .nilWord] := .literal (.nil rfl)
    rw [linkTokens_succ, ← List.append_assoc]
    exact .binary ih hnil

/-- `nil` times `nil` and so on, plus `nil` and so on. -/
def sumText (k j : Nat) : List Char := "nil".toList ++ (links .star k ++ links .plus j)

def sumTokens (k j : Nat) : List Token :=
  [.ofKeyword .nilWord] ++ linkTokens .star k ++ linkTokens .plus j

/-- A chain of factors is the first operand of a chain of terms. -/
def sumTree (k j : Nat) : Expr := row .plus j (row .star k (literal .nil))

theorem all_sumText (k j : Nat) :
    all (sumText k j) = nilTile :: (linkTiles .star k ++ (linkTiles .plus j ++ [])) := by
  have hend : ∀ c ∈ ([] : List Char).head?, continuesWord c = false := by simp
  have hplus := all_links (k := j) (.inr rfl) hend
  have hhead := head_links (k := j) (.inr rfl) hend
  rw [List.append_nil] at hplus hhead
  rw [sumText, all_nil (head_links (.inl rfl) hhead), all_links (.inl rfl) hhead, hplus, all]

theorem ofText_sumText (k j : Nat) : ∃ line,
    Scan.ofText (sumText k j) = ⟨sumTokens k j ++ [Token.eof line], []⟩ := by
  have hnil : ∀ ts, given (nilTile :: ts) = (.ofKeyword .nilWord :: (given ts).1, (given ts).2) :=
    fun _ => rfl
  have hgiven : given (all (sumText k j)) = (sumTokens k j, []) := by
    rw [all_sumText, hnil, given_links (.inl rfl), given_links (.inr rfl)]
    simp [given, placed, sumTokens]
  have hscan : Scan.ofText (sumText k j) =
      ⟨(given (all (sumText k j))).1 ++ [Token.eof (lastLine 1 (all (sumText k j)))],
        (given (all (sumText k j))).2⟩ := rfl
  rw [hgiven] at hscan
  exact ⟨_, hscan⟩

theorem spells_sumTree (k j : Nat) : (sumTree k j).Spells (sumTokens k j) :=
  spells_row (spells_row (.literal (.nil rfl)))

theorem sumTree_spec {k j : Nat} (hk : k ≤ 1024) (hj : j ≤ 1024) :
    (sumTree k j).Grammatical ∧ Limits.standard.Admits (sumTree k j) 0 0 := by
  obtain ⟨ht, hc, hg⟩ := row_spec (m := .star) (l := .factor) (e := literal .nil) rfl (by decide)
    (Nat.zero_le _) trivial k hk
  obtain ⟨-, hc, hg⟩ := row_spec (m := .plus) (l := .term) rfl (Nat.lt_succ_of_le ht) hc hg j hj
  have hn : (sumTree k j).nesting = 0 := by
    rw [sumTree, nesting_row, nesting_row]
    rfl
  exact ⟨hg, Limits.admits_standard_iff.2 ⟨hn ▸ Nat.zero_le _, hc⟩⟩

theorem parseSource_sumText {k j : Nat} (hk : k ≤ 1024) (hj : j ≤ 1024) :
    (parseSource (String.ofList (sumText k j)) ([] : List Diagnostic)).1 = .ok (sumTree k j) := by
  obtain ⟨line, hscan⟩ := ofText_sumText k j
  have hno : ∀ t ∈ [Token.eof line].head?, ¬ t.kind.isBinaryOperator := by
    rintro t ⟨rfl⟩
    exact Bool.false_ne_true
  obtain ⟨hg, ha⟩ := sumTree_spec hk hj
  have hl := Session.leads_start .standard hg (spells_sumTree k j) hno
  have hparse := Session.parse_of_admits hl ha
  simp only [parseSource, Scan.ofSource, String.toList_ofList, hscan, parseTokens, hparse,
    sourceResult]
  rfl

end Source

namespace Session

/-- Within the limits a session ends with the tree that comes next. -/
theorem Over.exists_parse_ok_iff {tokens : List Token} {s : Session} (h : s.Over .standard tokens)
    (e : Expr) : (∃ s', s.parse = (.ok e, s')) ↔
      ∃ n, e.Leads (tokens.drop s.position) n ∧ e.nesting ≤ 128 ∧ e.charge ≤ 1024 := by
  have hadmits : s.setting.limits.Admits e 0 0 ↔ e.nesting ≤ 128 ∧ e.charge ≤ 1024 := by
    rw [h.setting_eq]
    exact Limits.admits_standard_iff
  constructor
  · rintro ⟨s', hp⟩
    obtain ⟨n, hl, ha, -⟩ := parse_eq_ok_iff.1 hp
    exact ⟨n, h.leads_iff.1 hl, hadmits.1 ha⟩
  · rintro ⟨n, hl, hle⟩
    exact ⟨_, parse_of_admits (h.leads_iff.2 hl) (hadmits.2 hle)⟩

/-- A session ends with the tree that comes next exactly if it is nested no deeper than 128 and is
charged for no more than 1024 levels. It has at most 1024 levels then if they are all counted, and
at most 495488 in any case. -/
theorem parse_height (tokens : List Token) (actions : List Action) :
    let s := (start .standard tokens).run actions
    (∀ e, (∃ s', s.parse = (.ok e, s')) ↔
        ∃ n, e.Leads (tokens.drop s.position) n ∧ e.nesting ≤ 128 ∧ e.charge ≤ 1024) ∧
      (∀ e s', s.parse = (.ok e, s') → e.Counted → e.height ≤ 1024) ∧
      ∀ e s', s.parse = (.ok e, s') → e.height ≤ 495488 := by
  intro s
  have hok := (over_run .standard tokens actions).exists_parse_ok_iff
  refine ⟨hok, fun e s' hp hcounted => ?_, fun e s' hp => ?_⟩
  · obtain ⟨n, -, -, hcharge⟩ := (hok e).1 ⟨s', hp⟩
    exact Nat.le_trans (Expr.height_le_charge hcounted) hcharge
  · obtain ⟨n, hl, hle⟩ := (hok e).1 ⟨s', hp⟩
    exact Expr.height_le_of_admits hl.grammatical (Limits.admits_standard_iff.2 hle)

/-- A product of 1025 operands in a sum. -/
theorem parse_too_tall : ∃ e : Expr,
    (parseSource (String.ofList (sumText 1024 1)) ([] : List Diagnostic)).1 = .ok e ∧
      e.height = 1025 := by
  refine ⟨_, parseSource_sumText (Nat.le_refl _) (by decide), ?_⟩
  rw [sumTree, Expr.height_row, Expr.height_row]
  rfl

/-- A tree may be as tall as that. -/
theorem parse_tallest : ∃ tokens e s',
    (start .standard tokens).parse = (.ok e, s') ∧ e.height = 495488 := by
  obtain ⟨hg, hc, hn, hh⟩ := Expr.tower_spec (m := 128) (k := 1024) (by decide)
  obtain ⟨ts, hs⟩ := (Expr.tower 128 1024).exists_spells
  have ha : Limits.standard.Admits (Expr.tower 128 1024) 0 0 :=
    Limits.admits_standard_iff.2 ⟨Nat.le_of_eq hn, hc⟩
  have hno : ∀ t ∈ ([] : List Token).head?, ¬ t.kind.isBinaryOperator := fun _ ht => by cases ht
  have htall : Expr.tallest 128 1024 = 491392 := by decide +kernel
  exact ⟨ts ++ [], _, _, parse_of_admits (leads_start _ hg hs hno) ha, by rw [hh, htall]⟩

end Session

end Lox
