import Lox.Proofs.Lockstep

/-!
# Looser limits

The counters of a parse are compared with the limits and do nothing else. So a rule that does not
run into a limit does the same under looser limits (`Rule.Reads.loosen`), and one that does goes at
least as far under them as it came (`Rule.Reads.further`), because what it has taken before is taken
the same way. No limits at all are the loosest (`Session.parse_of_looser`).
-/

namespace Lox

namespace Limits

/-- Each bound of `L'` is at least that of `L`, where no bound is above all others. -/
structure Within (L L' : Limits) : Prop where
  nesting : ∀ b' ∈ L'.nesting, ∃ b ∈ L.nesting, b ≤ b'
  height : ∀ b' ∈ L'.height, ∃ b ∈ L.height, b ≤ b'

theorem within_unlimited (L : Limits) : L.Within unlimited := ⟨nofun, nofun⟩

theorem reached_of_le {bound bound' : Option Nat} {count : Nat}
    (h : ∀ b' ∈ bound', ∃ b ∈ bound, b ≤ b') (hr : reached bound' count) :
    reached bound count := by
  obtain ⟨b', hb', hle'⟩ := (Option.any_eq_true _ _).1 hr
  obtain ⟨b, hb, hle⟩ := h b' hb'
  exact (Option.any_eq_true _ _).2 ⟨b, hb, by simp_all; omega⟩

end Limits

section State

variable {c c' : Setting} {s : ParseState}

theorem ParseState.isTall_of_within (h : c.limits.Within c'.limits) (ht : s.isTall c') :
    s.isTall c :=
  Limits.reached_of_le h.height ht

theorem ParseState.isDeep_of_within (h : c.limits.Within c'.limits) (hd : s.isDeep c') :
    s.isDeep c :=
  (s.isDeep_iff c).2 (((s.isDeep_iff c').1 hd).imp (Limits.reached_of_le h.nesting)
    (Limits.reached_of_le h.height))

theorem ParseState.fail_of_final_eq (h : c'.final = c.final) (cause : Cause) :
    s.fail c' cause = s.fail c cause := by
  rw [fail, fail, current, current, h]

end State

/-- A parse has run into a limit. -/
def TooDeep (r : Except ParseError Expr) : Prop := ∃ t, r = .error ⟨.tooDeeplyNested, t⟩

theorem not_tooDeep_ok (e : Expr) : ¬ TooDeep (.ok e) := by
  rintro ⟨t, ht⟩
  cases ht

theorem tooDeep_map_iff {r : Except ParseError Expr} {f : Expr → Expr} :
    TooDeep (r.map f) ↔ TooDeep r := by
  cases r with
  | error x => exact Iff.rfl
  | ok e => exact iff_of_false (not_tooDeep_ok _) (not_tooDeep_ok _)

namespace Rule

open ParseState

section TakesOne

variable {c : Setting} {s : ParseState} {o : Except ParseError Expr × ParseState} {t : Token}
  {ts : List Token}

theorem Reads.link_suffix {l : Level} {left : Expr} {folds : Nat}
    (h : Reads c (.link l left folds) s o) (hs : s.rest = t :: ts) (hl : t.kind.level? = some l) :
    o.2.rest <:+ s.rest.tail := by
  cases h with
  | linkEnd hn => exact absurd hl (hn t (by simp [hs]))
  | linkTall => exact List.suffix_rfl
  | linkFail _ _ _ h => exact h.suffix
  | link _ _ _ h h' => exact h'.suffix.trans h.suffix

theorem Reads.unary_suffix (h : Reads c .unary s o) (hs : s.rest = t :: ts)
    (hp : t.kind.isPrefixOperator) : o.2.rest <:+ s.rest.tail := by
  cases h with
  | unaryDeep => exact List.suffix_rfl
  | unary _ _ _ h => exact h.suffix
  | plain hn => exact absurd hp (hn t (by simp [hs]))

theorem Reads.group_suffix (h : Reads c .primary s o) (hs : s.rest = t :: ts)
    (hk : t.kind = .mark .leftParen) : o.2.rest <:+ s.rest.tail := by
  cases h with
  | groupDeep => exact List.suffix_rfl
  | groupFail _ _ _ h | groupOpen _ _ _ h => exact h.suffix
  | group _ _ _ h => exact (List.tail_suffix _).trans h.suffix
  | literal => exact List.suffix_rfl
  | noOperand hn => exact absurd (.inl hk) (hn t (by simp [hs]))

theorem suffix_closeGroup (c : Setting) (inner : Expr) (s : ParseState) :
    (closeGroup c inner s).1.2.rest <:+ s.rest := by
  unfold closeGroup
  split_ifs
  · exact List.tail_suffix _
  · exact List.suffix_rfl

end TakesOne

variable {c c' : Setting} {r : Rule} {s : ParseState} {o : Except ParseError Expr × ParseState}

/-- What runs into no limit is the same under looser ones. -/
theorem Reads.loosen (h : Reads c r s o) (hw : c.limits.Within c'.limits)
    (hf : c'.final = c.final) (hn : ¬ TooDeep o.1) : Reads c' r s o := by
  induction h with
  | chainFail _ ih => exact .chainFail (ih hn)
  | chain _ _ ih ih' => exact .chain (ih (not_tooDeep_ok _)) (ih' hn)
  | linkEnd ha => exact .linkEnd ha
  | linkTall | unaryDeep | groupDeep => exact absurd ⟨_, rfl⟩ hn
  | linkFail hs hl ht _ ih =>
    exact .linkFail hs hl (fun ht' => ht (isTall_of_within hw ht')) (ih hn)
  | link hs hl ht _ _ ih ih' =>
    exact .link hs hl (fun ht' => ht (isTall_of_within hw ht')) (ih (not_tooDeep_ok _)) (ih' hn)
  | unary hs hp hd _ ih =>
    exact .unary hs hp (fun hd' => hd (isDeep_of_within hw hd')) (ih (mt tooDeep_map_iff.2 hn))
  | plain ha _ ih => exact .plain ha (ih hn)
  | groupFail hs hk hd _ ih =>
    exact .groupFail hs hk (fun hd' => hd (isDeep_of_within hw hd')) (ih hn)
  | groupOpen hs hk hd _ ha ih =>
    rw [← fail_of_final_eq hf]
    exact .groupOpen hs hk (fun hd' => hd (isDeep_of_within hw hd')) (ih (not_tooDeep_ok _)) ha
  | group hs hk hd _ hr hc ih =>
    exact .group hs hk (fun hd' => hd (isDeep_of_within hw hd')) (ih (not_tooDeep_ok _)) hr hc
  | literal hs hv => exact .literal hs hv
  | noOperand ha =>
    rw [← fail_of_final_eq hf]
    exact .noOperand ha

/-- What runs into a limit goes at least as far under looser ones. -/
theorem Reads.further (h : Reads c r s o) (hw : c.limits.Within c'.limits)
    (hf : c'.final = c.final) (hdeep : TooDeep o.1) :
    ∃ o', Reads c' r s o' ∧ o'.2.rest <:+ o.2.rest := by
  induction h with
  | @chainFail l s s₁ e _ ih =>
    obtain ⟨⟨x | left, s₁'⟩, h', hsuf⟩ := ih hdeep
    · exact ⟨_, .chainFail h', hsuf⟩
    · have hlink := reads_parse c' (.link l left 0) s₁'
      exact ⟨_, .chain h' hlink, hlink.suffix.trans hsuf⟩
  | chain h _ _ ih =>
    obtain ⟨o', h', hsuf⟩ := ih hdeep
    exact ⟨o', .chain (h.loosen hw hf (not_tooDeep_ok _)) h', hsuf⟩
  | linkEnd | group | literal => exact absurd hdeep (not_tooDeep_ok _)
  | @linkTall l left folds s op ts hs hl _ =>
    have hlink := reads_parse c' (.link l left folds) s
    exact ⟨_, hlink, hlink.link_suffix hs hl⟩
  | @linkFail l left folds s s₁ op ts e hs hl ht _ ih =>
    have ht' : ¬ s.advance.isTall c' := fun ht' => ht (isTall_of_within hw ht')
    obtain ⟨⟨x | right, s₁'⟩, h', hsuf⟩ := ih hdeep
    · exact ⟨_, .linkFail hs hl ht' h', hsuf⟩
    · have hlink := reads_parse c' (.link l (.binary left op right) (folds + 1)) s₁'
      exact ⟨_, .link hs hl ht' h' hlink, hlink.suffix.trans hsuf⟩
  | link hs hl ht h _ _ ih =>
    obtain ⟨o', h', hsuf⟩ := ih hdeep
    exact ⟨o', .link hs hl (fun ht' => ht (isTall_of_within hw ht'))
      (h.loosen hw hf (not_tooDeep_ok _)) h', hsuf⟩
  | @unaryDeep s op ts hs hp _ =>
    have hun := reads_parse c' .unary s
    exact ⟨_, hun, hun.unary_suffix hs hp⟩
  | unary hs hp hd _ ih =>
    obtain ⟨⟨r', s₁'⟩, h', hsuf⟩ := ih (tooDeep_map_iff.1 hdeep)
    exact ⟨_, .unary hs hp (fun hd' => hd (isDeep_of_within hw hd')) h', hsuf⟩
  | plain ha _ ih =>
    obtain ⟨o', h', hsuf⟩ := ih hdeep
    exact ⟨o', .plain ha h', hsuf⟩
  | @groupDeep s opening ts hs hk _ =>
    have hgroup := reads_parse c' .primary s
    exact ⟨_, hgroup, hgroup.group_suffix hs hk⟩
  | groupFail hs hk hd _ ih =>
    have hd' := fun hd' => hd (isDeep_of_within hw hd')
    obtain ⟨⟨x | inner, s₁'⟩, h', hsuf⟩ := ih hdeep
    · exact ⟨_, .groupFail hs hk hd' h', hsuf⟩
    · exact ⟨_, reads_closeGroup hs hk hd' h', (suffix_closeGroup c' inner s₁'.leave).trans hsuf⟩
  | groupOpen | noOperand => exact absurd hdeep nofun

theorem Reads.not_tooDeep (h : Reads c r s o) (hc : c.limits = .unlimited) : ¬ TooDeep o.1 := by
  induction h with
  | chainFail _ ih | linkFail _ _ _ _ ih | plain _ _ ih | groupFail _ _ _ _ ih => exact ih
  | chain _ _ _ ih | link _ _ _ _ _ _ ih => exact ih
  | linkEnd | group | literal => exact not_tooDeep_ok _
  | linkTall _ _ ht =>
    rw [isTall, hc] at ht
    cases ht
  | unaryDeep _ _ hd | groupDeep _ _ hd =>
    rw [isDeep, isTall, hc] at hd
    cases hd
  | unary _ _ _ _ ih => exact mt tooDeep_map_iff.1 ih
  | groupOpen | noOperand =>
    rintro ⟨t, ht⟩
    cases ht

end Rule

namespace Session

variable {L L' : Limits} {tokens : List Token} {s t : Session}

/-- The same session under other limits. -/
def under (s : Session) (L : Limits) : Session := { s with setting := ⟨L, s.setting.final⟩ }

theorem Over.under (h : s.Over L tokens) (L' : Limits) : (s.under L').Over L' tokens :=
  ⟨by rw [Session.under, h.setting_eq], h.tokens_eq, h.position_le⟩

theorem parse_under (h : s.setting.limits.Within L') (hn : ¬ TooDeep s.parse.1) :
    (s.under L').parse = (s.parse.1, s.parse.2.under L') := by
  have hr := Rule.reads_parse s.setting .expression s.state
  have hr' : Rule.Reads (s.under L').setting .expression s.state _ := hr.loosen h rfl hn
  exact parse_of_reads hr'

theorem suffix_parse_under (h : s.setting.limits.Within L') (hdeep : TooDeep s.parse.1) :
    (s.under L').parse.2.rest <:+ s.parse.2.rest := by
  obtain ⟨f, hr, hrest, -⟩ := s.reads_parse
  obtain ⟨f', hr', hrest', -⟩ := (s.under L').reads_parse
  obtain ⟨o', ho', hsuf⟩ : ∃ o', Rule.Reads (s.under L').setting .expression s.state o' ∧
      o'.2.rest <:+ f.rest := hr.further h rfl hdeep
  have heq : ((s.under L').parse.1, f') = o' := hr'.eq_parse.trans ho'.eq_parse.symm
  rw [hrest, hrest']
  rw [← heq] at hsuf
  exact hsuf

theorem throughout_same (tokens : List Token) : Likeness.same.Throughout tokens tokens :=
  ⟨List.forall₂_same.2 fun _ _ => rfl, rfl⟩

/-- Sessions at the same place, however they came there, answer alike under the same limits. -/
theorem Over.parse_eq (hs : s.Over L tokens) (ht : t.Over L tokens)
    (hp : t.position = s.position) :
    t.parse.1 = s.parse.1 ∧ t.parse.2.position = s.parse.2.position := by
  have hstep : InStep L tokens tokens s t := ⟨hs, ht, hp⟩
  obtain ⟨hnext, hres⟩ := hstep.parse (throughout_same tokens)
  exact ⟨hres.eq.symm, hnext.position_eq⟩

/-- A parse that runs into no limit ends the same, with the same report and at the same place,
under looser limits; one that does run into a limit takes at least as many tokens under them. Where
there are no limits, no parse runs into one. -/
theorem parse_of_looser (tokens : List Token) (as bs : List Action) (L L' : Limits) :
    let s := (start L tokens).run as
    let t := (start L' tokens).run bs
    L.Within .unlimited ∧ (L' = .unlimited → ¬ TooDeep t.parse.1) ∧
      (L.Within L' → t.position = s.position →
        (¬ TooDeep s.parse.1 → t.parse.1 = s.parse.1 ∧
          t.parse.2.position = s.parse.2.position ∧
          ∃ new, s.parse.2.reports = s.reports ++ new ∧ t.parse.2.reports = t.reports ++ new) ∧
        (TooDeep s.parse.1 → s.parse.2.position ≤ t.parse.2.position)) := by
  intro s t
  have hs : s.Over L tokens := over_run L tokens as
  have ht : t.Over L' tokens := over_run L' tokens bs
  refine ⟨L.within_unlimited, fun hL' => ?_, fun hw hp => ?_⟩
  · obtain ⟨f, hr, -⟩ := t.reads_parse
    exact hr.not_tooDeep (by rw [ht.setting_eq, hL'])
  have hlim : s.setting.limits.Within L' := by rw [hs.setting_eq]; exact hw
  obtain ⟨hanswer, hpos⟩ := (hs.under L').parse_eq ht hp
  refine ⟨fun hn => ?_, fun hdeep => ?_⟩
  · rw [parse_under hlim hn] at hanswer hpos
    refine ⟨hanswer, hpos, Rule.reported s.parse.1, reports_of_parse rfl, ?_⟩
    rw [← hanswer]
    exact reports_of_parse rfl
  · have hle := (suffix_parse_under hlim hdeep).length_le
    have hlen := (hs.act .parse).position_add_length_rest
    have hlen' := ((hs.under L').act .parse).position_add_length_rest
    simp only [Session.act] at hlen hlen'
    omega

/-- Behind a semicolon, where one session came by an error and two by none, a second prefix
operator is too much for the first; without limits the tree is the one that two nestings allow. -/
theorem parse_of_looser_negation :
    let tokens : List Token := [.ofMark .plus, .ofMark .semicolon, .ofMark .bang, .ofMark .bang,
      .ofKeyword .nilWord]
    let L : Limits := ⟨some 1, some 5⟩
    let L' : Limits := ⟨some 2, some 5⟩
    let s := (start L tokens).run [.parse, .synchronize]
    let t := (start L' tokens).run [.synchronize]
    let u := (start .unlimited tokens).run [.synchronize]
    L.Within L' ∧ TooDeep s.parse.1 ∧ s.parse.2.position = 4 ∧ 4 ≤ t.parse.2.position ∧
      ¬ TooDeep t.parse.1 ∧ u.parse.1 = t.parse.1 := by
  intro tokens L L' s t u
  have hw : L.Within L' := ⟨by simp [L, L'], by simp [L, L']⟩
  have hs : TooDeep s.parse.1 := ⟨.ofKeyword .nilWord, by decide +kernel⟩
  have hq : s.parse.2.position = 4 := by decide +kernel
  have ht : ¬ TooDeep t.parse.1 := by
    have hok : t.parse.1.toBool = true := by decide +kernel
    rintro ⟨x, hx⟩
    rw [hx] at hok
    cases hok
  obtain ⟨-, -, hst⟩ := parse_of_looser tokens [.parse, .synchronize] [.synchronize] L L'
  obtain ⟨hwu, -, htu⟩ := parse_of_looser tokens [.synchronize] [.synchronize] L' .unlimited
  have hle := (hst hw (by decide +kernel)).2 hs
  exact ⟨hw, hs, hq, hq ▸ hle, ht, ((htu hwu (by decide +kernel)).1 ht).1⟩

end Session

end Lox
