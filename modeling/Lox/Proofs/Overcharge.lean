import Lox.Proofs.Spacing
import Lox.Proofs.TallTrees

/-!
# Trees that are charged too much

The last operand of a chain has one level of the chain above it, but is charged for all of its
operators. Where chains stand in the last operands of chains these charges add up, over the four
levels and over the groups in between: `Expr.costliest` is the most that a tree of some height can
be charged, and `Expr.crown` is a tree that is charged so much.

A tree of at most 49 levels is never charged more than 1024 (`Expr.charge_le`). One of 50 levels can
be, and is then rejected (`Session.parse_overcharged`) though it is far within the limits; a tree
within the limits is accepted exactly if its charge is (`Session.parse_within_limits`).
-/

namespace Lox

namespace Expr

theorem nesting_le_height (e : Expr) : e.nesting ≤ e.height := by
  induction e with
  | literal => exact Nat.le_refl _
  | unary _ _ ih | group _ ih => exact Nat.succ_le_succ ih
  | binary left op right ihl ihr =>
    simp only [nesting, height]
    omega

theorem folds_le_height (l : Option Level) (e : Expr) : e.folds l ≤ e.height := by
  induction e with
  | literal | unary | group => exact Nat.zero_le _
  | binary left op right ihl _ =>
    simp only [folds, height]
    split_ifs <;> omega

section Bound

/-- The greatest charge of a tree with `h` levels, and with operators of the `j` tightest levels of
precedence only outside its groups. -/
def costliest : (j h : Nat) → Nat
  | _, 0 => 0
  | 0, h + 1 => costliest 4 h + 1
  | j + 1, h + 1 => costliest j h + (h + 1)

theorem costliest_succ_le (j h : Nat) : costliest j h ≤ costliest j (h + 1) := by
  induction h generalizing j with
  | zero => simp [costliest]
  | succ h ih =>
    cases j with
    | zero => exact Nat.add_le_add_right (ih 4) 1
    | succ j => exact Nat.add_le_add (ih j) (Nat.le_succ _)

/-- One more level of chains costs no less, as chains cost no more than a group of them. -/
theorem costliest_le_succ : ∀ {j : Nat} (h : Nat), j ≤ 3 → costliest j h ≤ costliest (j + 1) h
  | _, 0, _ => by simp [costliest]
  | 0, 1, _ => by simp [costliest]
  | 0, h + 2, _ => by
    have hinner : costliest 3 h ≤ costliest 4 h := costliest_le_succ h (Nat.le_refl 3)
    simp only [costliest]
    omega
  | j + 1, h + 1, hj => Nat.add_le_add_right (costliest_le_succ h (Nat.le_of_succ_le hj)) _

theorem costliest_mono {i j : Nat} (hij : i ≤ j) (hj : j ≤ 4) (h : Nat) :
    costliest i h ≤ costliest j h := by
  induction hij with
  | refl => exact Nat.le_refl _
  | step _ ih => exact Nat.le_trans (ih (Nat.le_of_succ_le hj)) (costliest_le_succ h (by omega))

theorem charge_le_costliest {e : Expr} {j h : Nat} (hg : e.Grammatical) (ht : e.tier ≤ j + 1)
    (hj : j ≤ 4) (hh : e.height ≤ h) : e.charge ≤ costliest j h := by
  induction e generalizing j h with
  | literal v => exact Nat.zero_le _
  | unary op e ih =>
    obtain ⟨-, hte, hge⟩ := hg
    obtain ⟨h, rfl⟩ := Nat.exists_eq_add_of_le' (Nat.le_trans (Nat.le_add_left 1 _) hh)
    have hle := ih hge (j := 4) (h := h) (Nat.le_trans hte (by decide)) (Nat.le_refl 4)
      (Nat.le_of_succ_le_succ hh)
    exact Nat.le_trans (Nat.succ_le_succ hle) (costliest_mono (Nat.zero_le j) hj (h + 1))
  | group e ih =>
    obtain ⟨h, rfl⟩ := Nat.exists_eq_add_of_le' (Nat.le_trans (Nat.le_add_left 1 _) hh)
    have hle := ih hg (j := 4) (h := h) e.tier_le (Nat.le_refl 4) (Nat.le_of_succ_le_succ hh)
    exact Nat.le_trans (Nat.succ_le_succ hle) (costliest_mono (Nat.zero_le j) hj (h + 1))
  | binary left op right ihl ihr =>
    obtain ⟨l, hl, htl, htr, hgl, hgr⟩ := hg
    obtain ⟨h, rfl⟩ := Nat.exists_eq_add_of_le' (Nat.le_trans (Nat.le_add_left 1 _) hh)
    rw [tier_binary hl] at ht
    have hrank := Rule.unary_lt_chain l
    obtain ⟨i, hi⟩ := Nat.exists_eq_add_of_le' (show 2 ≤ (Rule.chain l).rank from hrank)
    rw [hi] at htl htr ht
    simp only [height, Nat.succ_le_succ_iff, Nat.max_le] at hh
    have hfolds := left.folds_le_height (some l)
    have hleft := ihl hgl (j := i + 1) htl (by omega) hh.1
    have hright := ihr hgr (j := i) (by omega) (by omega) hh.2
    have hown : (binary left op right).charge ≤ costliest (i + 1) (h + 1) := by
      have hmono := costliest_succ_le (i + 1) h
      have hstep : costliest (i + 1) (h + 1) = costliest i h + (h + 1) := rfl
      simp only [charge, hl, Nat.max_le]
      omega
    exact Nat.le_trans hown (costliest_mono (by omega) hj (h + 1))

theorem charge_le {e : Expr} (hg : e.Grammatical) (hh : e.height ≤ 49) : e.charge ≤ 1009 := by
  have h := charge_le_costliest hg (j := 4) e.tier_le (Nat.le_refl 4) hh
  have hcost : costliest 4 49 = 1009 := by decide +kernel
  omega

end Bound

section Crown

/-- An operator of the level that is the `j`-th from the tightest. -/
def joint : Nat → Mark
  | 0 => .star
  | 1 => .plus
  | 2 => .less
  | _ => .equalEqual

/-- A tree as costly as its height allows: the last operand of every chain is such a tree, and all
the others are `nil`. -/
def crown : (j h : Nat) → Expr
  | _, 0 => literal .nil
  | 0, h + 1 => group (crown 4 h)
  | j + 1, h + 1 => binary (row (joint j) h (literal .nil)) (.ofMark (joint j)) (crown j h)

theorem level?_joint {j : Nat} (hj : j ≤ 3) :
    ∃ l, (joint j).level? = some l ∧ (Rule.chain l).rank = j + 2 := by
  match j with
  | 0 => exact ⟨.factor, rfl, rfl⟩
  | 1 => exact ⟨.term, rfl, rfl⟩
  | 2 => exact ⟨.comparison, rfl, rfl⟩
  | 3 => exact ⟨.equality, rfl, rfl⟩

theorem crown_spec {j : Nat} (h : Nat) (hj : j ≤ 4) : (crown j h).Grammatical ∧
    (crown j h).tier ≤ j + 1 ∧ (crown j h).height = h ∧ (crown j h).charge = costliest j h := by
  induction h generalizing j with
  | zero => cases j <;> exact ⟨trivial, Nat.zero_le _, rfl, rfl⟩
  | succ h ih =>
    cases j with
    | zero =>
      obtain ⟨hg, -, hh, hc⟩ := ih (Nat.le_refl 4)
      exact ⟨hg, Nat.zero_le _, congrArg Nat.succ hh, congrArg Nat.succ hc⟩
    | succ j =>
      obtain ⟨hg, ht, hh, hc⟩ := ih (Nat.le_of_succ_le hj)
      obtain ⟨l, hl, hrank⟩ := level?_joint (Nat.le_of_succ_le_succ hj)
      have hop : (Token.ofMark (joint j)).kind.level? = some l := hl
      have hnil : (literal .nil).tier < (Rule.chain l).rank := Rule.rank_chain_pos l
      obtain ⟨htr, hcr, hgr⟩ := row_spec hl hnil (Nat.zero_le h) trivial h (Nat.le_refl h)
      have hf : (row (joint j) h (literal .nil)).folds (some l) = h := by
        rw [folds_row hl]
        exact Nat.zero_add h
      have hhr : (row (joint j) h (literal .nil)).height = h := by
        rw [height_row]
        exact Nat.zero_add h
      refine ⟨⟨l, hop, htr, by omega, hgr, hg⟩, ?_, ?_, ?_⟩
      · exact Nat.le_of_eq ((tier_binary hop).trans hrank)
      · simp only [crown, height, hhr, hh, Nat.max_self]
      · simp only [crown, charge, hop, hf, hc, costliest]
        omega

theorem nesting_crown_le (h : Nat) : (crown 4 h).nesting ≤ h :=
  Nat.le_trans (nesting_le_height _) (Nat.le_of_eq (crown_spec h (Nat.le_refl 4)).2.2.1)

end Crown

end Expr

section Source

open Lox.Tile Lox.Expr

/-- The tiles of a tree, but for the space between them. -/
def crownTiles : (j h : Nat) → List Tile
  | _, 0 => [nilTile]
  | 0, h + 1 => .mark .leftParen :: crownTiles 4 h ++ [.mark .rightParen]
  | j + 1, h + 1 => nilTile :: linkTiles (joint j) h ++ .mark (joint j) :: crownTiles j h

/-- Their tokens, on the first line. -/
def crownTokens (j h : Nat) : List Token := (crownTiles j h).filterMap (token? 1)

theorem token?_mark (m : Mark) : (Tile.mark m).token? 1 = some (.ofMark m) := by
  rw [token?, Tile.text, String.ofList_toList, Token.ofMark]

theorem token?_nilTile : nilTile.token? 1 = some (.ofKeyword .nilWord) := by decide

theorem filterMap_linkTiles (m : Mark) (k : Nat) :
    (linkTiles m k).filterMap (token? 1) = linkTokens m k := by
  induction k with
  | zero => rfl
  | succ k ih =>
    have hcut : linkTiles m (k + 1) = .mark m :: nilTile :: linkTiles m k := rfl
    rw [hcut, List.filterMap_cons_some (token?_mark m), List.filterMap_cons_some token?_nilTile, ih]
    rfl

theorem spells_crown (j h : Nat) : (crown j h).Spells (crownTokens j h) := by
  have hnil : (literal .nil).Spells [.ofKeyword .nilWord] := .literal (.nil rfl)
  have hone : [nilTile].filterMap (token? 1) = [.ofKeyword .nilWord] :=
    List.filterMap_cons_some token?_nilTile
  induction h generalizing j with
  | zero =>
    cases j <;> exact (hone ▸ hnil :)
  | succ h ih =>
    cases j with
    | zero =>
      have htokens : crownTokens 0 (h + 1) =
          .ofMark .leftParen :: crownTokens 4 h ++ [.ofMark .rightParen] := by
        simp only [crownTokens, crownTiles, List.cons_append, List.filterMap_append,
          List.filterMap_cons_some (token?_mark _), List.filterMap_nil]
      rw [htokens]
      exact .group rfl rfl (ih 4)
    | succ j =>
      have htokens : crownTokens (j + 1) (h + 1) = ([.ofKeyword .nilWord] ++
          linkTokens (joint j) h) ++ .ofMark (joint j) :: crownTokens j h := by
        simp only [crownTokens, crownTiles, List.cons_append, List.filterMap_append,
          List.filterMap_cons_some (token?_mark _), List.filterMap_cons_some token?_nilTile,
          filterMap_linkTiles, List.nil_append]
      rw [htokens]
      exact .binary (spells_row hnil) (ih j)

theorem isLexeme_crownTiles (j h : Nat) :
    ∀ t ∈ crownTiles j h, t.IsLexeme ∧ '\n' ∉ t.text := by
  have hnil : nilTile.IsLexeme ∧ '\n' ∉ nilTile.text :=
    ⟨⟨'n', ['i', 'l'], rfl, rfl, List.all_eq_true.1 rfl⟩, by decide⟩
  have hmark : ∀ m : Mark, (Tile.mark m).IsLexeme ∧ '\n' ∉ (Tile.mark m).text := fun m =>
    ⟨trivial, by cases m <;> decide⟩
  have hlinks : ∀ (m : Mark) (k : Nat), ∀ t ∈ linkTiles m k, t.IsLexeme ∧ '\n' ∉ t.text := by
    intro m k t ht
    simp only [linkTiles, List.mem_flatten, List.mem_replicate] at ht
    obtain ⟨link, ⟨-, rfl⟩, ht⟩ := ht
    rcases List.mem_cons.1 ht with rfl | ht
    · exact hmark m
    · obtain rfl := List.mem_singleton.1 ht
      exact hnil
  induction h generalizing j with
  | zero => cases j <;> exact List.forall_mem_singleton.2 hnil
  | succ h ih =>
    cases j with
    | zero =>
      exact List.forall_mem_cons.2 ⟨hmark _, List.forall_mem_append.2 ⟨ih 4,
        List.forall_mem_singleton.2 (hmark _)⟩⟩
    | succ j =>
      exact List.forall_mem_cons.2 ⟨hnil, List.forall_mem_append.2 ⟨hlinks _ _,
        List.forall_mem_cons.2 ⟨hmark _, ih j⟩⟩⟩

/-- The text of a tree. -/
def crownText (h : Nat) : List Char := written (apart (crownTiles 4 h))

end Source

namespace Session

/-- However tall it is, a tree of at most 128 nestings is what a parse ends with exactly if it is
charged for at most 1024 levels, and too deep for it otherwise. With at most 49 levels it never
is. -/
theorem parse_within_limits {e : Expr} {ts rest : List Token} (hg : e.Grammatical)
    (hs : e.Spells ts) (hr : ∀ t ∈ rest.head?, ¬ t.kind.isBinaryOperator)
    (hn : e.nesting ≤ 128) :
    let s := start .standard (ts ++ rest)
    (s.parse = (.ok e, { s with position := ts.length }) ↔ e.charge ≤ 1024) ∧
      ((∃ t s', s.parse = (.error ⟨.tooDeeplyNested, t⟩, s')) ↔ 1024 < e.charge) ∧
      (e.height ≤ 49 → s.parse = (.ok e, { s with position := ts.length })) := by
  intro s
  have hl : e.Leads s.rest ts.length := leads_start _ hg hs hr
  have hok : e.charge ≤ 1024 → s.parse = (.ok e, { s with position := ts.length }) := fun hc => by
    rw [parse_of_admits hl (Limits.admits_standard_iff.2 ⟨hn, hc⟩)]
    simp [s, start]
  have hdeep : 1024 < e.charge → ∃ t s', s.parse = (.error ⟨.tooDeeplyNested, t⟩, s') := by
    intro hc
    have hna : ¬ Limits.standard.Admits e 0 0 := fun ha =>
      Nat.not_le.2 hc (Limits.admits_standard_iff.1 ha).2
    obtain ⟨t, s', hp, -⟩ := parse_of_not_admits hl hna
    exact ⟨t, s', hp⟩
  refine ⟨⟨fun hp => ?_, hok⟩, ⟨fun hp => ?_, hdeep⟩, fun h => ?_⟩
  · refine Nat.le_of_not_lt fun hc => ?_
    obtain ⟨t, s', hp'⟩ := hdeep hc
    cases hp.symm.trans hp'
  · obtain ⟨t, s', hp⟩ := hp
    refine Nat.lt_of_not_le fun hc => ?_
    cases hp.symm.trans (hok hc)
  · exact hok (Nat.le_trans (Expr.charge_le hg h) (by decide))

/-- The costliest tree of 49 levels. -/
theorem parse_within_limits_crown :
    let s := start .standard (crownTokens 4 49 ++ [Token.eof 1])
    (Expr.crown 4 49).height = 49 ∧
      s.parse = (.ok (Expr.crown 4 49), { s with position := (crownTokens 4 49).length }) := by
  intro s
  obtain ⟨hg, -, hh, -⟩ := Expr.crown_spec 49 (Nat.le_refl 4)
  have hn : (Expr.crown 4 49).nesting ≤ 128 := Nat.le_trans (Expr.nesting_crown_le 49) (by decide)
  have hr : ∀ t ∈ [Token.eof 1].head?, ¬ t.kind.isBinaryOperator := by
    rintro t ⟨rfl⟩
    exact Bool.false_ne_true
  exact ⟨hh, (parse_within_limits hg (spells_crown 4 49) hr hn).2.2 (Nat.le_of_eq hh)⟩

theorem parseSource_crown {h : Nat} (hc : 1024 < Expr.costliest 4 h) :
    Scan.ofText (crownText h) = ⟨crownTokens 4 h ++ [Token.eof 1], []⟩ ∧
      ∃ t, (parseSource (String.ofList (crownText h)) ([] : List Diagnostic)).1 =
        .error (.parse ⟨.tooDeeplyNested, t⟩) := by
  obtain ⟨hg, -, -, hcharge⟩ := Expr.crown_spec h (Nat.le_refl 4)
  have hscan : Scan.ofText (crownText h) = ⟨crownTokens 4 h ++ [Token.eof 1], []⟩ :=
    Scan.ofText_apart (isLexeme_crownTiles 4 h)
  have hr : ∀ t ∈ [Token.eof 1].head?, ¬ t.kind.isBinaryOperator := by
    rintro t ⟨rfl⟩
    exact Bool.false_ne_true
  have hna : ¬ Limits.standard.Admits (Expr.crown 4 h) 0 0 := fun ha =>
    Nat.not_le.2 hc (hcharge ▸ (Limits.admits_standard_iff.1 ha).2)
  obtain ⟨t, s', hp, -⟩ :=
    parse_of_not_admits (leads_start .standard hg (spells_crown 4 h) hr) hna
  refine ⟨hscan, t, ?_⟩
  simp only [parseSource, Scan.ofSource, String.toList_ofList, hscan, parseTokens, hp, sourceResult]

/-- With 50 levels, and no more than 50 nestings, a tree can be charged for 1050. -/
theorem parse_overcharged :
    (Expr.crown 4 50).Grammatical ∧ (Expr.crown 4 50).Spells (crownTokens 4 50) ∧
      (Expr.crown 4 50).height = 50 ∧ (Expr.crown 4 50).nesting ≤ 50 ∧
      Scan.ofText (crownText 50) = ⟨crownTokens 4 50 ++ [Token.eof 1], []⟩ ∧
      ∃ t, (parseSource (String.ofList (crownText 50)) ([] : List Diagnostic)).1 =
        .error (.parse ⟨.tooDeeplyNested, t⟩) := by
  obtain ⟨hg, -, hh, -⟩ := Expr.crown_spec 50 (Nat.le_refl 4)
  have hcost : 1024 < Expr.costliest 4 50 := by decide +kernel
  exact ⟨hg, spells_crown 4 50, hh, Expr.nesting_crown_le 50, parseSource_crown hcost⟩

end Session

end Lox
