import Lox.Proofs.Spelling
import Lox.Proofs.Stepwise
import Lox.Session
import Mathlib.Algebra.GroupWithZero.Nat
import Mathlib.Algebra.Order.BigOperators.Group.List
import Mathlib.Algebra.Order.Group.Nat

/-!
# What the counters count

At every point of a parse, `nesting` is what it was at the start and one for each prefix operator
and group that waits, and `height` is what it was and the levels that all that waits has open
(`Point.Balanced`). Only an error loses count: the chains it breaks off keep the levels of their
operators. So no change takes more from a counter than is there, a rule that ends with a tree
leaves both counters as it found them, and one that fails leaves `nesting` so
(`Rule.parse_balances_counters`).
-/

namespace Lox

namespace Change

/-- The levels that a change adds to `height`. -/
def grows : Change → Nat
  | grow | enter => 1
  | _ => 0

/-- The levels that a change takes from `height`. -/
def shrinks : Change → Nat
  | shrink levels => levels
  | leave => 1
  | _ => 0

/-- What a change adds to `nesting`. -/
def enters : Change → Nat
  | enter => 1
  | _ => 0

/-- What a change takes from `nesting`. -/
def leaves : Change → Nat
  | leave => 1
  | _ => 0

variable (c : Setting) (s : ParseState) (change : Change)

theorem enters_or_leaves : change.enters = 0 ∨ change.leaves = 0 := by
  cases change <;> simp [enters, leaves]

theorem grows_or_shrinks : change.grows = 0 ∨ change.shrinks = 0 := by
  cases change <;> simp [grows, shrinks]

theorem height_apply : (change.apply c s).height = s.height + change.grows - change.shrinks := by
  cases change <;> rfl

theorem nesting_apply :
    (change.apply c s).nesting = s.nesting + change.enters - change.leaves := by
  cases change <;> rfl

end Change

theorem Limits.lt_of_not_reached {bound : Option Nat} {count b : Nat}
    (h : ¬ reached bound count) (hb : b ∈ bound) : count < b :=
  Nat.lt_of_not_le fun hle => h ((Option.any_eq_true _ _).2 ⟨b, hb, decide_eq_true hle⟩)

/-- The operators that a rule has counted when it starts. Only what is left of a chain has any. -/
def Rule.folds : Rule → Nat
  | link _ _ folds => folds
  | _ => 0

namespace Waiting

/-- The operators that are counted before waiting begins. -/
def folds : Waiting → Nat
  | link _ _ folds _ => folds
  | _ => 0

/-- The levels that are open during the wait. -/
def levels (w : Waiting) : Nat := w.folds + w.opening.grows

def nestings (w : Waiting) : Nat := w.opening.enters

end Waiting

namespace Task

/-- The levels that are open, but for those of what waits. -/
def levels : Task → Nat
  | rule r => r.folds
  | await w => w.folds
  | _ => 0

def IsError : Task → Prop
  | result (.error _) => True
  | _ => False

@[simp] theorem levels_rule (r : Rule) : (rule r).levels = r.folds := rfl

@[simp] theorem levels_await (w : Waiting) : (await w).levels = w.folds := rfl

@[simp] theorem levels_result (r : Except ParseError Expr) : (result r).levels = 0 := rfl

end Task

namespace Waiting

variable (w : Waiting)

theorem folds_rule : w.rule.folds = 0 := by
  rcases w with (_ | _ | _ | _) | ⟨_ | _ | _ | _, _, _, _⟩ | _ | _ <;> rfl

theorem shrinks_opening : w.opening.shrinks = 0 := by cases w <;> rfl

theorem leaves_opening : w.opening.leaves = 0 := by cases w <;> rfl

theorem grows_closing : w.closing.grows = 0 := by cases w <;> rfl

theorem enters_closing : w.closing.enters = 0 := by cases w <;> rfl

theorem leaves_closing : w.closing.leaves = w.nestings := by cases w <;> rfl

theorem levels_resume_ok (e : Expr) :
    (w.resume (.ok e)).levels + w.closing.shrinks = w.levels := by
  cases w <;> rfl

theorem shrinks_closing_le : w.closing.shrinks ≤ w.levels :=
  Nat.le_of_add_left_le (Nat.le_of_eq (w.levels_resume_ok (.literal .nil)))

theorem nestings_le_levels : w.nestings ≤ w.levels := by
  cases w <;> simp [nestings, levels, opening, Change.enters, Change.grows]

theorem resume_error (e : ParseError) : w.resume (.error e) = .result (.error e) := by
  cases w <;> rfl

end Waiting

namespace Point

def levels (p : Point) : Nat := p.task.levels + (p.waiting.map Waiting.levels).sum

def nestings (p : Point) : Nat := (p.waiting.map Waiting.nestings).sum

@[simp] theorem levels_mk (task : Task) (ws : List Waiting) (s : ParseState) :
    levels ⟨task, ws, s⟩ = task.levels + (ws.map Waiting.levels).sum := rfl

@[simp] theorem nestings_mk (task : Task) (ws : List Waiting) (s : ParseState) :
    nestings ⟨task, ws, s⟩ = (ws.map Waiting.nestings).sum := rfl

/-- The ways a step can go, as far as the counters are concerned. -/
inductive Move (c : Setting) : Point → Change → Task → List Waiting → Prop
  | pass {task task' : Task} {change : Change} {ws : List Waiting} {s : ParseState} :
      change = .stay ∨ change = .take → task'.levels = task.levels → ¬ task.IsError →
      ¬ task'.IsError → Move c ⟨task, ws, s⟩ change task' ws
  | shrink {l : Level} {left : Expr} {folds : Nat} {ws : List Waiting} {s : ParseState} :
      Move c ⟨.rule (.link l left folds), ws, s⟩ (.shrink folds) (.result (.ok left)) ws
  | fail {task : Task} {cause : Cause} {e : ParseError} {ws : List Waiting} {s : ParseState} :
      Move c ⟨task, ws, s⟩ (.report cause) (.result (.error e)) ws
  | wait {w : Waiting} {ws : List Waiting} {s : ParseState} : ¬ w.isBlocked c s →
      Move c ⟨.await w, ws, s⟩ w.opening (.rule w.rule) (w :: ws)
  | resume {r : Except ParseError Expr} {w : Waiting} {ws : List Waiting} {s : ParseState} :
      Move c ⟨.result r, w :: ws, s⟩ w.closing (w.resume r) ws

variable {c : Setting} {p q : Point} {change : Change} {task : Task} {ws : List Waiting}

theorem move_of_next (h : p.next c = some (change, task, ws)) : Move c p change task ws := by
  obtain ⟨task₀, ws₀, s⟩ := p
  rcases task₀ with (_ | ⟨l, left, folds⟩ | _ | _) | w | inner | r
  · cases h
    exact .pass (.inl rfl) rfl id id
  · simp only [next] at h
    split at h <;> cases h
    · exact .pass (.inr rfl) rfl id id
    · exact .shrink
  · simp only [next] at h
    split at h <;> cases h
    · exact .pass (.inr rfl) rfl id id
    · exact .pass (.inl rfl) rfl id id
  · simp only [next] at h
    split at h <;> cases h
    · exact .pass (.inr rfl) rfl id id
    · exact .pass (.inr rfl) rfl id id
    · exact .fail
  · simp only [next] at h
    split_ifs at h with hw <;> cases h
    · exact .fail
    · exact .wait hw
  · simp only [next] at h
    split at h <;> cases h
    · exact .pass (.inr rfl) rfl id id
    · exact .fail
  · cases ws₀ with
    | nil => cases h
    | cons w ws =>
      cases h
      exact .resume

namespace Move

theorem nestings_add (h : Move c p change task ws) :
    (ws.map Waiting.nestings).sum + change.leaves = p.nestings + change.enters := by
  cases h with
  | pass hc => rcases hc with rfl | rfl <;> rfl
  | shrink | fail => rfl
  | @wait w =>
    have hw : w.nestings = w.opening.enters := rfl
    simp only [List.map_cons, List.sum_cons, nestings_mk, w.leaves_opening]
    omega
  | @resume r w =>
    simp only [List.map_cons, List.sum_cons, nestings_mk, w.leaves_closing, w.enters_closing]
    omega

theorem isError (h : Move c p change task ws) (hp : p.task.IsError) : task.IsError := by
  cases h with
  | pass _ _ he => exact absurd hp he
  | shrink | wait => exact hp.elim
  | fail => trivial
  | @resume r w =>
    cases r with
    | ok e => exact hp.elim
    | error e => exact w.resume_error e ▸ trivial

/-- Only on an error may levels stay open that nothing will close. -/
theorem levels_add (h : Move c p change task ws) : ∃ lost,
    task.levels + (ws.map Waiting.levels).sum + change.shrinks + lost =
      p.levels + change.grows ∧ (¬ task.IsError → lost = 0) := by
  cases h with
  | @pass _ _ _ _ _ hc hl he =>
    rw [levels_mk, hl]
    rcases hc with rfl | rfl <;> exact ⟨0, rfl, fun _ => rfl⟩
  | @shrink l left folds =>
    have hf : (Rule.link l left folds).folds = folds := rfl
    have hs : (Change.shrink folds).shrinks = folds ∧ (Change.shrink folds).grows = 0 := ⟨rfl, rfl⟩
    simp only [levels_mk, Task.levels_rule, Task.levels_result]
    exact ⟨0, by omega, fun _ => rfl⟩
  | @fail task cause =>
    have hs : (Change.report cause).shrinks = 0 ∧ (Change.report cause).grows = 0 := ⟨rfl, rfl⟩
    simp only [levels_mk, Task.levels_result]
    exact ⟨task.levels, by omega, fun he => absurd trivial he⟩
  | @wait w =>
    have hw : w.levels = w.folds + w.opening.grows := rfl
    simp only [levels_mk, Task.levels_rule, Task.levels_await, List.map_cons, List.sum_cons,
      w.folds_rule, w.shrinks_opening]
    exact ⟨0, by omega, fun _ => rfl⟩
  | @resume r w =>
    simp only [levels_mk, Task.levels_result, List.map_cons, List.sum_cons, w.grows_closing]
    cases r with
    | ok e =>
      have hw := w.levels_resume_ok e
      exact ⟨0, by omega, fun _ => rfl⟩
    | error e =>
      have hw := w.shrinks_closing_le
      rw [w.resume_error, Task.levels_result]
      exact ⟨w.levels - w.closing.shrinks, by omega, fun he => absurd trivial he⟩

theorem leaves_le (h : Move c p change task ws) : change.leaves ≤ p.nestings := by
  have hadd := h.nestings_add
  rcases change.enters_or_leaves with hc | hc <;> omega

theorem shrinks_le (h : Move c p change task ws) : change.shrinks ≤ p.levels := by
  obtain ⟨lost, hadd, -⟩ := h.levels_add
  rcases change.grows_or_shrinks with hc | hc <;> omega

theorem room_height (h : Move c p change task ws) {b : Nat} (hb : b ∈ c.limits.height)
    (hle : p.state.height ≤ b) : p.state.height + change.grows ≤ b := by
  cases h with
  | pass hc => rcases hc with rfl | rfl <;> exact hle
  | shrink | fail => exact hle
  | resume => rwa [Waiting.grows_closing]
  | @wait w _ s hw =>
    have hroom (ht : ¬ s.isTall c) : s.height + 1 ≤ b := Limits.lt_of_not_reached ht hb
    cases w with
    | chain l => exact hle
    | link l left folds op => exact hroom hw
    | unary op => exact hroom fun ht => hw ((s.isDeep_iff c).2 (.inr ht))
    | group => exact hroom fun ht => hw ((s.isDeep_iff c).2 (.inr ht))

theorem room_nesting (h : Move c p change task ws) {b : Nat} (hb : b ∈ c.limits.nesting)
    (hle : p.state.nesting ≤ b) : p.state.nesting + change.enters ≤ b := by
  cases h with
  | pass hc => rcases hc with rfl | rfl <;> exact hle
  | shrink | fail => exact hle
  | resume => rwa [Waiting.enters_closing]
  | @wait w _ s hw =>
    have hroom (hd : ¬ s.isDeep c) : s.nesting + 1 ≤ b :=
      Limits.lt_of_not_reached (fun hn => hd ((s.isDeep_iff c).2 (.inl hn))) hb
    cases w with
    | chain l => exact hle
    | link l left folds op => exact hle
    | unary op => exact hroom hw
    | group => exact hroom hw

end Move

/-- The counters are within the limits and stand at what they were, `n` and `h`, and at what waits.
An error can leave `height` higher. -/
structure Balanced (c : Setting) (n h : Nat) (p : Point) : Prop where
  nesting_eq : p.state.nesting = n + p.nestings
  le_height : h + p.levels ≤ p.state.height
  height_eq : ¬ p.task.IsError → p.state.height = h + p.levels
  nesting_le : ∀ b ∈ c.limits.nesting, p.state.nesting ≤ b
  height_le : ∀ b ∈ c.limits.height, p.state.height ≤ b

theorem exists_move (h : p.step c = some q) : ∃ change,
    Move c p change q.task q.waiting ∧ q.state = change.apply c p.state := by
  obtain ⟨⟨change, task, ws⟩, hn, rfl⟩ := Option.map_eq_some_iff.1 h
  exact ⟨change, move_of_next hn, rfl⟩

namespace Balanced

variable {n h : Nat}

/-- No change takes more from a counter than is there. -/
theorem covers (hp : p.Balanced c n h) (hm : Move c p change task ws) :
    change.leaves ≤ p.state.nesting ∧ change.shrinks ≤ p.state.height := by
  have hn := hp.nesting_eq
  have hh := hp.le_height
  have hleaves := hm.leaves_le
  have hshrinks := hm.shrinks_le
  constructor <;> omega

theorem step (hp : p.Balanced c n h) (hs : p.step c = some q) : q.Balanced c n h := by
  obtain ⟨change, hm, hq⟩ := exists_move hs
  obtain ⟨lost, hlevels, hlost⟩ := hm.levels_add
  obtain ⟨hleaves, hshrinks⟩ := hp.covers hm
  have hnestings := hm.nestings_add
  have hnesting := congrArg ParseState.nesting hq
  have hheight := congrArg ParseState.height hq
  rw [Change.nesting_apply] at hnesting
  rw [Change.height_apply] at hheight
  have hpn := hp.nesting_eq
  have hph := hp.le_height
  refine ⟨?_, ?_, fun he => ?_, fun b hb => ?_, fun b hb => ?_⟩
  · rw [nestings]
    omega
  · rw [levels]
    omega
  · have hpe := hp.height_eq fun hpe => he (hm.isError hpe)
    have hl := hlost he
    rw [levels]
    omega
  · have hroom := hm.room_nesting hb (hp.nesting_le b hb)
    omega
  · have hroom := hm.room_height hb (hp.height_le b hb)
    omega

theorem reaches (hp : p.Balanced c n h) (hr : Reaches c p q) : q.Balanced c n h := by
  induction hr with
  | refl => exact hp
  | tail _ hs ih => exact ih.step hs

theorem nesting_le_height (hp : p.Balanced c n h) (hnh : n ≤ h) :
    p.state.nesting ≤ p.state.height := by
  have hle : p.nestings ≤ p.levels :=
    Nat.le_trans (List.sum_le_sum fun w _ => w.nestings_le_levels) (Nat.le_add_left _ _)
  have hn := hp.nesting_eq
  have hh := hp.le_height
  omega

end Balanced

theorem balanced_rule {r : Rule} {s : ParseState} (hr : r.folds = 0)
    (hn : ∀ b ∈ c.limits.nesting, s.nesting ≤ b) (hh : ∀ b ∈ c.limits.height, s.height ≤ b) :
    Balanced c s.nesting s.height ⟨.rule r, [], s⟩ :=
  ⟨rfl, Nat.le_of_eq (by simp [hr]), fun _ => by simp [hr], hn, hh⟩

end Point

namespace Rule

open Point

/-- From any counters within the limits, a rule that has folded nothing stays within the limits at
every point on the way to what it ends with, and no change takes more from a counter than is there.
A tree leaves both counters as they were, and an error leaves `nesting` so and `height` no lower.
The parses of a session start from 0, and so a tree leaves 0. -/
theorem parse_balances_counters (final : Token) (r : Rule) (s : ParseState) (hr : r.folds = 0)
    (hnh : s.nesting ≤ s.height) (hn : s.nesting ≤ 128) (hh : s.height ≤ 1024) :
    let c : Setting := ⟨.standard, final⟩
    let first : Point := ⟨.rule r, [], s⟩
    let last : Point := ⟨.result (parse c r s).1, [], (parse c r s).2⟩
    (Reaches c first last ∧ last.step c = none ∧ ∀ p, Reaches c first p →
      Reaches c p last ∧ p.state.nesting ≤ 128 ∧ p.state.height ≤ 1024 ∧
        p.state.nesting ≤ p.state.height ∧
        ∀ change task ws, p.next c = some (change, task, ws) →
          change.leaves ≤ p.state.nesting ∧ change.shrinks ≤ p.state.height) ∧
      (∀ e f, parse c r s = (.ok e, f) → f.nesting = s.nesting ∧ f.height = s.height) ∧
      (∀ e f, parse c r s = (.error e, f) → f.nesting = s.nesting ∧ s.height ≤ f.height) ∧
      ∀ (session : Session) e, session.parse.1 = .ok e →
        let f := (parse session.setting .expression session.state).2
        f.nesting = 0 ∧ f.height = 0 := by
  intro c first last
  have hnesting : ∀ b ∈ c.limits.nesting, s.nesting ≤ b := by
    rintro b ⟨rfl⟩
    exact hn
  have hheight : ∀ b ∈ c.limits.height, s.height ≤ b := by
    rintro b ⟨rfl⟩
    exact hh
  have hfirst : Balanced c s.nesting s.height first := balanced_rule hr hnesting hheight
  have hreach : Reaches c first last := (reads_parse c r s).reaches []
  have hlast : Balanced c s.nesting s.height last := hfirst.reaches hreach
  refine ⟨⟨hreach, rfl, fun p hp => ?_⟩, fun e f he => ?_, fun e f he => ?_, fun t e he => ?_⟩
  · have hb := hfirst.reaches hp
    exact ⟨hp.onward hreach rfl, hb.nesting_le _ rfl, hb.height_le _ rfl,
      hb.nesting_le_height hnh, fun change task ws hnext => hb.covers (move_of_next hnext)⟩
  · simp only [last, he] at hlast
    exact ⟨hlast.nesting_eq, hlast.height_eq id⟩
  · simp only [last, he] at hlast
    exact ⟨hlast.nesting_eq, hlast.le_height⟩
  · have hb : Balanced t.setting 0 0 ⟨.result t.parse.1, [], _⟩ :=
      (balanced_rule rfl (fun b _ => Nat.zero_le b) fun b _ => Nat.zero_le b).reaches
        ((reads_parse t.setting .expression t.state).reaches [])
    rw [he] at hb
    exact ⟨hb.nesting_eq, hb.height_eq id⟩

/-- Right below both limits there is room for one level more. -/
theorem parse_balances_counters_product :
    let s : ParseState := ⟨[.ofMark .minus, .ofKeyword .nilWord, .ofMark .star,
      .ofKeyword .nilWord], 127, 1023, []⟩
    let o := parse ⟨.standard, .eof 1⟩ .expression s
    o.1.isOk ∧ o.2.nesting = 127 ∧ o.2.height = 1023 := by
  intro s o
  have hok : o.1.isOk := by decide +kernel
  obtain ⟨-, htree, -⟩ := parse_balances_counters (.eof 1) .expression s rfl (by decide)
    (by decide) (by decide)
  rcases ho : o with ⟨e | e, f⟩
  · rw [ho] at hok
    cases hok
  · exact ⟨rfl, htree e f ho⟩

/-- A sum without its second operand keeps the level of its operator. -/
example : (parse ⟨.standard, .eof 1⟩ .expression
    ⟨[.ofKeyword .nilWord, .ofMark .plus], 0, 0, []⟩).2.height = 1 := by decide +kernel

end Rule

end Lox
