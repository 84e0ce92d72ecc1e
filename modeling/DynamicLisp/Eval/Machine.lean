import DynamicLisp.Environment.Basic
import DynamicLisp.Event

/-!
The state of an evaluation and its elementary steps. A step that halts keeps the state that it has
reached, so definitions made before a fault stay.
-/
namespace DynamicLisp

/-- The scopes, the next identity that no value has yet, and the events so far, last first. -/
structure Machine where
  env : Environment
  fresh : Identity
  events : List Event

/-- A computation that reads and changes a machine and may halt. -/
abbrev Eval (α : Type) := ExceptT Halt (StateM Machine) α

namespace Eval

/-- Halts with a fault of the program. -/
def fail {α : Type} (f : Fault) : Eval α :=
  throw (.fault f)

/-- The value of a computation that needs no machine. -/
def ofHalt {α : Type} : Except Halt α → Eval α
  | .ok a => pure a
  | .error h => throw h

/-- Draws an identity that no value has yet. -/
def newIdentity : Eval Identity :=
  modifyGet fun m => (m.fresh, { m with fresh := m.fresh + 1 })

/-- Takes down an event. -/
def report (e : Event) : Eval Unit :=
  modify fun m => { m with events := e :: m.events }

/-- The value of a name in the current scope. -/
def lookup (name : String) : Eval Value := do
  match (← get).env.lookup? name with
  | some v => pure v
  | none => fail (.undefined name)

/-- Binds a name in the current scope. -/
def define (name : String) (v : Value) : Eval Unit :=
  modify fun m => { m with env := m.env.define name v }

/-- Computes in a new scope with the bindings of `f`, and closes it in any case. -/
def within {α : Type} (f : Frame) (body : Eval α) : Eval α :=
  ExceptT.mk fun m =>
    let (r, m') := body.run { m with env := m.env.push f }
    (r, { m' with env := m'.env.pop })

/-! ### Runs -/

/-- A computation that follows another starts where that one ends, unless it halts. -/
theorem run_bind {α β : Type} (x : Eval α) (f : α → Eval β) (m : Machine) :
    (x >>= f).run m =
      match x.run m with
      | (.ok a, m') => (f a).run m'
      | (.error h, m') => (.error h, m') := by
  simp only [ExceptT.run, bind, ExceptT.bind, ExceptT.mk, StateT.bind]
  cases hx : x m with
  | mk r m' => cases r <;> rfl

@[simp]
theorem run_pure {α : Type} (a : α) (m : Machine) :
    (pure a : Eval α).run m = (.ok a, m) := rfl

@[simp]
theorem run_throw {α : Type} (h : Halt) (m : Machine) :
    (throw h : Eval α).run m = (.error h, m) := rfl

@[simp]
theorem run_fail {α : Type} (f : Fault) (m : Machine) :
    (fail f : Eval α).run m = (.error (.fault f), m) := rfl

@[simp]
theorem run_ofHalt {α : Type} (r : Except Halt α) (m : Machine) :
    (ofHalt r).run m = (r, m) := by
  cases r <;> rfl

@[simp]
theorem run_newIdentity (m : Machine) :
    newIdentity.run m = (.ok m.fresh, { m with fresh := m.fresh + 1 }) := rfl

@[simp]
theorem run_report (e : Event) (m : Machine) :
    (report e).run m = (.ok (), { m with events := e :: m.events }) := rfl

@[simp]
theorem run_define (name : String) (v : Value) (m : Machine) :
    (define name v).run m = (.ok (), { m with env := m.env.define name v }) := rfl

/-- A look-up changes nothing; a name without a value is a fault. -/
@[simp]
theorem run_lookup (name : String) (m : Machine) :
    (lookup name).run m =
      ((m.env.lookup? name).elim (.error (.fault (.undefined name))) .ok, m) := by
  show (match m.env.lookup? name with
    | some v => (pure v : Eval Value)
    | none => fail (.undefined name)).run m = _
  cases m.env.lookup? name <;> rfl

@[simp]
theorem run_within {α : Type} (f : Frame) (body : Eval α) (m : Machine) :
    (within f body).run m =
      ((body.run { m with env := m.env.push f }).1,
        { (body.run { m with env := m.env.push f }).2 with
          env := (body.run { m with env := m.env.push f }).2.env.pop }) := rfl

end Eval

end DynamicLisp
