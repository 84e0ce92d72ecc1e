import DynamicLisp.Catalog
import DynamicLisp.Eval.Basic
import DynamicLisp.Reading

/-!
Sessions and programs. A session evaluates texts one after the other with one root frame; a program
is the first form of a text, evaluated with a frame of its own. Forms are evaluated as far as the
text can be read, so a defect hides nothing that stands before it.
-/
namespace DynamicLisp

/-- The nesting of evaluations that is allowed unless something else is said. -/
def defaultDepth : Nat := 1500

namespace Script

/-- The value of a script that has been evaluated, unless a defect stands at its end. -/
def finish {α : Type} (s : Script) (a : α) : Eval α :=
  match s.defect with
  | none => pure a
  | some h => throw h

/-- Evaluates all forms; the value is that of the last, or nil. -/
def last (depth : Nat) (s : Script) : Eval Value := do
  s.finish (← Eval.inOrder (Eval.evaluate depth) .nil s.forms)

/-- Evaluates all forms and gives all values. -/
def values (depth : Nat) (s : Script) : Eval (List Value) := do
  s.finish (← Eval.each (Eval.evaluate depth) s.forms)

end Script

/-- A root frame that lives on from text to text. -/
structure Session where
  machine : Machine
  depth : Nat

namespace Session

/-- A session in which nothing has been defined. -/
def start (depth : Nat := defaultDepth) : Session := ⟨Catalog.machine, depth⟩

/-- Carries out a computation; what it has done so far stays also when it halts. -/
def perform {α : Type} (s : Session) (x : Eval α) : Except Halt α × Session :=
  let (r, m) := x.run s.machine
  (r, { s with machine := m })

/-- Evaluates all forms of a text and gives the last value. -/
def eval (s : Session) (code : String) : Except Halt Value × Session :=
  s.perform ((Script.ofText code).last s.depth)

/-- Evaluates all forms of a text and gives each value. -/
def evalEach (s : Session) (code : String) : Except Halt (List Value) × Session :=
  s.perform ((Script.ofText code).values s.depth)

/-- What the session has bound besides the catalog. -/
def bindings (s : Session) : List (String × Value) :=
  Catalog.additions s.machine.env.root

/-- The diagnostics so far, in order. -/
def events (s : Session) : List Event :=
  s.machine.events.reverse

end Session

namespace Program

/-- Evaluates the first form of some tokens. -/
def value (depth : Nat) (tokens : List Token) : Eval Value := do
  Eval.evaluate depth (← Eval.ofHalt (Reading.ofTokens tokens).outcome)

/-- Evaluates the first form of some tokens and gives the display of its value. -/
def display (depth : Nat) (tokens : List Token) : Eval String := do
  Eval.ofHalt (← value depth tokens).display?

/-- Runs the first form of a text from the catalog alone: the display of its value, and the
diagnostics in order. -/
def run (source : String) (depth : Nat := defaultDepth) : Except Halt String × List Event :=
  let tokens := Token.ofText source
  let (r, s) := (Session.start depth).perform (display depth tokens)
  let failure :=
    match r with
    | .error (.fault f) => [Event.programFailed f.message]
    | _ => []
  (r, .programRead tokens.length :: s.events ++ failure)

/-- A program ends as the display of its value does. -/
theorem fst_run (source : String) (depth : Nat) :
    (run source depth).1 = ((display depth (Token.ofText source)).run Catalog.machine).1 := by
  simp only [run, Session.perform, Session.start]
  cases (display depth (Token.ofText source)).run Catalog.machine
  rfl

end Program

end DynamicLisp
