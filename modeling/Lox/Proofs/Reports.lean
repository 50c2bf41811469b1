import Lox.Proofs.Alike
import Lox.Proofs.Sessions

/-!
# What a session reports

A rule that fails leaves the parse at the token it blames, through however many rules the failure
passes (`Rule.Reads.current_eq`). So each call of a session reports the error it ends with, if it
ends with one, and the session then stands at the token of it; what a sink holds after some calls
is what it held before and the errors of the parses among them, in order (`run_reports_errors`).
-/

namespace Lox

/-- A failure does not move the parse. -/
theorem Rule.Reads.current_eq {c : Setting} {r : Rule} {s : ParseState}
    {o : Except ParseError Expr × ParseState} (h : Reads c r s o) :
    ∀ {e : ParseError}, o.1 = .error e → o.2.current c = e.token := by
  induction h with
  | chainFail _ ih | plain _ _ ih => exact ih
  | chain _ _ _ ih | link _ _ _ _ _ _ ih => exact ih
  | linkEnd | literal | group =>
    rintro e ⟨⟩
  | linkTall | unaryDeep | groupDeep | groupOpen | noOperand =>
    rintro e ⟨rfl⟩
    rfl
  | linkFail _ _ _ _ ih | groupFail _ _ _ _ ih => exact fun he => ih he
  | @unary s s₁ op ts r _ _ _ _ ih =>
    intro e he
    cases r with
    | ok _ => cases he
    | error e' =>
      cases he
      exact ih rfl

namespace Session

/-- What a parse reads, and where it leaves the session. -/
theorem reads_parse (s : Session) : ∃ f : ParseState,
    Rule.Reads s.setting .expression s.state (s.parse.1, f) ∧ s.parse.2.rest = f.rest ∧
      s.parse.2.reports = f.reports := by
  have hr := Rule.reads_parse s.setting .expression s.state
  have hs : (Rule.parse s.setting .expression s.state).2.rest <:+ s.tokens :=
    hr.suffix.trans (List.drop_suffix _ _)
  exact ⟨_, hr, (List.suffix_iff_eq_drop.1 hs).symm, rfl⟩

theorem reports_of_parse {s s' : Session} {r : Except ParseError Expr} (h : s.parse = (r, s')) :
    s'.reports = s.reports ++ Rule.reported r := by
  obtain ⟨f, hr, -, hf⟩ := s.reads_parse
  rw [h] at hr hf
  exact hf.trans hr.reports_eq

/-- A session stands at the token of the error that its parse ended with. -/
theorem peek_of_parse {s s' : Session} {e : ParseError} (h : s.parse = (.error e, s')) :
    s'.peek = e.token := by
  obtain ⟨f, hr, hrest, -⟩ := s.reads_parse
  have hset : s'.setting = s.setting := congrArg (fun p => p.2.setting) h.symm
  rw [h] at hr hrest
  rw [peek, hrest, hset, ← hr.current_eq rfl]
  rfl

theorem reports_synchronize (s : Session) : s.synchronize.reports = s.reports := by
  unfold synchronize
  split <;> rfl

/-- The errors that the parses among some calls end with, in order. -/
def errors (s : Session) : List Action → List ParseError
  | [] => []
  | .parse :: as =>
    match s.parse with
    | (.ok _, s') => s'.errors as
    | (.error e, s') => e :: s'.errors as
  | .synchronize :: as => s.synchronize.errors as

theorem reports_run (s : Session) (actions : List Action) :
    (s.run actions).reports = s.reports ++ (s.errors actions).map .parse := by
  induction actions generalizing s with
  | nil => exact (List.append_nil _).symm
  | cons a as ih =>
    cases a with
    | parse =>
      show (s.parse.2.run as).reports = _
      rcases hp : s.parse with ⟨e | tree, s'⟩
      · rw [ih, reports_of_parse hp, errors, hp, List.append_assoc]
        rfl
      · rw [ih, reports_of_parse hp, errors, hp, List.append_assoc]
        rfl
    | synchronize =>
      show (s.synchronize.run as).reports = _
      rw [ih, reports_synchronize]
      rfl

theorem reportAll_eq_append (held ds : List Diagnostic) : Sink.reportAll held ds = held ++ ds := by
  induction ds generalizing held with
  | nil => exact (List.append_nil _).symm
  | cons d ds ih =>
    show Sink.reportAll (held ++ [d]) ds = _
    rw [ih, List.append_assoc, List.singleton_append]

/-- Each error is reported once, by the parse that ends with it, at the token where the session
stands then; nothing else is reported, and nothing that was is lost. -/
theorem run_reports_errors (limits : Limits) (tokens : List Token) (actions : List Action)
    (held : List Diagnostic) :
    let s := (start limits tokens).run actions
    (∀ e s', s.parse = (.ok e, s') → s'.reports = s.reports) ∧
      (∀ e s', s.parse = (.error e, s') →
        s'.reports = s.reports ++ [.parse e] ∧ s'.peek = e.token) ∧
      s.synchronize.reports = s.reports ∧
      Sink.reportAll held s.reports =
        held ++ ((start limits tokens).errors actions).map .parse := by
  intro s
  refine ⟨fun e s' hp => ?_, fun e s' hp => ?_, s.reports_synchronize, ?_⟩
  · rw [reports_of_parse hp, Rule.reported, List.append_nil]
  · exact ⟨reports_of_parse hp, peek_of_parse hp⟩
  · rw [reportAll_eq_append, reports_run]
    rfl

end Session

end Lox
