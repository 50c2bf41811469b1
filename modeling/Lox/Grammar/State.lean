import Lox.Diagnostic
import Lox.Expr.Basic

/-!
# The state of a parse

A parse holds the tokens still to be read, what it has reported, and two counters of what is open
around the next token: `nesting` counts prefix operators and groups, and `height` counts the tree
levels these and the chains of binary operators will put above an operand. Limits bound both.

The state offers no way to fail but `fail`, which reports the error at the token the parse stands
at and leaves the rest of the state alone.
-/

namespace Lox

/-- Bounds on the two counters, each `none` where there is no bound. -/
structure Limits where
  nesting : Option Nat
  height : Option Nat

namespace Limits

def standard : Limits := ⟨some 128, some 1024⟩

def unlimited : Limits := ⟨none, none⟩

/-- Whether a count has come up to a bound. -/
def reached (bound : Option Nat) (count : Nat) : Bool := bound.any (· ≤ count)

end Limits

/-- What stays the same during a parse: the limits, and the token that stands for the end of
input. -/
structure Setting where
  limits : Limits
  final : Token

structure ParseState where
  rest : List Token
  nesting : Nat
  height : Nat
  reports : List Diagnostic

namespace ParseState

/-- The token the parse stands at. -/
def current (c : Setting) (s : ParseState) : Token := s.rest.headD c.final

/-- No room for another level of the tree. -/
def isTall (c : Setting) (s : ParseState) : Bool := Limits.reached c.limits.height s.height

/-- No room for another prefix operator or group. -/
def isDeep (c : Setting) (s : ParseState) : Bool :=
  Limits.reached c.limits.nesting s.nesting || s.isTall c

/-- Takes a token. -/
def advance (s : ParseState) : ParseState := { s with rest := s.rest.tail }

def grow (s : ParseState) : ParseState := { s with height := s.height + 1 }

def shrink (s : ParseState) (levels : Nat) : ParseState := { s with height := s.height - levels }

def enter (s : ParseState) : ParseState := { s.grow with nesting := s.nesting + 1 }

def leave (s : ParseState) : ParseState := { s.shrink 1 with nesting := s.nesting - 1 }

def fail (c : Setting) (cause : Cause) (s : ParseState) : Except ParseError Expr × ParseState :=
  let e : ParseError := ⟨cause, s.current c⟩
  (.error e, { s with reports := s.reports ++ [.parse e] })

section Rest

variable (c : Setting) (s : ParseState)

@[simp] theorem rest_advance : s.advance.rest = s.rest.tail := rfl

@[simp] theorem rest_grow : s.grow.rest = s.rest := rfl

@[simp] theorem rest_shrink (levels : Nat) : (s.shrink levels).rest = s.rest := rfl

@[simp] theorem rest_enter : s.enter.rest = s.rest := rfl

@[simp] theorem rest_leave : s.leave.rest = s.rest := rfl

@[simp] theorem rest_fail (cause : Cause) : (s.fail c cause).2.rest = s.rest := rfl

end Rest

section Counters

variable (c : Setting) (s : ParseState)

@[simp] theorem nesting_advance : s.advance.nesting = s.nesting := rfl

@[simp] theorem nesting_grow : s.grow.nesting = s.nesting := rfl

@[simp] theorem nesting_shrink (levels : Nat) : (s.shrink levels).nesting = s.nesting := rfl

@[simp] theorem nesting_enter : s.enter.nesting = s.nesting + 1 := rfl

@[simp] theorem nesting_leave : s.leave.nesting = s.nesting - 1 := rfl

@[simp] theorem height_advance : s.advance.height = s.height := rfl

@[simp] theorem height_grow : s.grow.height = s.height + 1 := rfl

@[simp] theorem height_shrink (levels : Nat) : (s.shrink levels).height = s.height - levels := rfl

@[simp] theorem height_enter : s.enter.height = s.height + 1 := rfl

@[simp] theorem height_leave : s.leave.height = s.height - 1 := rfl

theorem isDeep_iff : s.isDeep c ↔
    Limits.reached c.limits.nesting s.nesting ∨ Limits.reached c.limits.height s.height :=
  Bool.or_eq_true_iff

end Counters

section Reports

variable (c : Setting) (s : ParseState)

@[simp] theorem reports_advance : s.advance.reports = s.reports := rfl

@[simp] theorem reports_grow : s.grow.reports = s.reports := rfl

@[simp] theorem reports_shrink (levels : Nat) : (s.shrink levels).reports = s.reports := rfl

@[simp] theorem reports_enter : s.enter.reports = s.reports := rfl

@[simp] theorem reports_leave : s.leave.reports = s.reports := rfl

@[simp] theorem reports_fail (cause : Cause) :
    (s.fail c cause).2.reports = s.reports ++ [.parse ⟨cause, s.current c⟩] := rfl

@[simp] theorem result_fail (cause : Cause) :
    (s.fail c cause).1 = .error ⟨cause, s.current c⟩ := rfl

end Reports

end ParseState

end Lox
