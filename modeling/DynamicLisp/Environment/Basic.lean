import DynamicLisp.Frame

/-!
Environments. An environment is a chain of frames, the innermost first; a name means what the
first frame that binds it says, and definitions go into the innermost frame.
-/
namespace DynamicLisp

/-- The frames in which a form is evaluated. -/
structure Environment where
  inner : Frame
  outer : List Frame

namespace Environment

/-- The frames, innermost first. -/
def frames (e : Environment) : List Frame :=
  e.inner :: e.outer

/-- The value that a name has. -/
def lookup? (e : Environment) (name : String) : Option Value :=
  e.frames.findSome? (·.lookup? name)

/-- Binds a name in the innermost frame. -/
def define (e : Environment) (name : String) (v : Value) : Environment :=
  { e with inner := e.inner.define name v }

/-- Opens a scope with the bindings of `f`. -/
def push (e : Environment) (f : Frame) : Environment :=
  ⟨f, e.frames⟩

/-- Closes the innermost scope; the outermost stays. -/
def pop : Environment → Environment
  | ⟨_, f :: fs⟩ => ⟨f, fs⟩
  | ⟨f, []⟩ => ⟨f, []⟩

/-- The outermost frame. -/
def root (e : Environment) : Frame :=
  e.outer.getLastD e.inner

@[simp]
theorem pop_push (e : Environment) (f : Frame) : (e.push f).pop = e := rfl

/-- A definition sets the meaning of one name and of no other. -/
theorem lookup?_define (e : Environment) (name m : String) (v : Value) :
    (e.define name v).lookup? m = if m = name then some v else e.lookup? m := by
  by_cases h : m = name <;>
    simp [lookup?, define, frames, List.findSome?_cons, Frame.lookup?_define, h]

/-- A scope just opened hides the names that it binds. -/
theorem lookup?_push (e : Environment) (f : Frame) (name : String) :
    (e.push f).lookup? name = (f.lookup? name).or (e.lookup? name) := by
  cases h : f.lookup? name <;> simp [lookup?, push, frames, List.findSome?_cons, h]

/-! ### Names given as values -/

/-- Why a name given as a value cannot be looked up: the search halts, or the value is of a kind
that is compared by its parts and so is no key. -/
inductive LookupFailure where
  | halt (h : Halt)
  | noKey (kind : String)
  deriving DecidableEq, Repr

/-- What the user is told. -/
def LookupFailure.message : LookupFailure → String
  | halt h => h.message
  | noKey kind => "unhashable type: '" ++ kind ++ "'"

/-- The name that a value is, if it is one; any other value that is a key at least is bound
nowhere. -/
def nameOf? : Value → Except LookupFailure (Option String)
  | .symbol _ n => .ok (some n)
  | .list .. => .error (.noKey "list")
  | .pair .. => .error (.noKey "Pair")
  | .lambda .. => .error (.noKey "Lambda")
  | _ => .ok none

/-- The value of a name given as a value. -/
def lookup (e : Environment) (name : Value) : Except LookupFailure Value := do
  match (← nameOf? name).bind e.lookup? with
  | some v => return v
  | none => throw (.halt (.fault (.undefined (← name.describe?.mapError .halt))))

/-- A symbol has the value of its name. -/
theorem lookup_symbol (e : Environment) (i : Identity) (n : String) :
    e.lookup (.symbol i n) =
      (e.lookup? n).elim (.error (.halt (.fault (.undefined n)))) .ok := by
  show (match e.lookup? n with
    | some v => _
    | none => _) = _
  cases e.lookup? n <;> rfl

/-! ### Texts -/

/-- The innermost bindings, with a hint at outer ones. -/
def describe (e : Environment) : String :=
  e.inner.describe ++ if e.outer.isEmpty then "" else " -> ..."

/-- The bindings of all frames. -/
def inspect (e : Environment) : String :=
  "<Environment chain: " ++ " -> ".intercalate (e.frames.map Frame.describe) ++ ">"

/-- The innermost bindings, unless a number bound is beyond writing. -/
def describe? (e : Environment) : Except Halt String :=
  if e.inner.isShowable then .ok e.describe else .error .longNumber

/-- The bindings of all frames, unless a number bound is beyond writing. -/
def inspect? (e : Environment) : Except Halt String :=
  if e.frames.all Frame.isShowable then .ok e.inspect else .error .longNumber

end Environment

end DynamicLisp
