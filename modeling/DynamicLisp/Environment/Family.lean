import DynamicLisp.Environment.Basic

/-!
Families of environments. The scopes of a family share their outer frames, so a definition in one
shows in every scope that lies inside it and does not hide the name.
-/
namespace DynamicLisp.Environment

/-- A scope of a family: its own frame, and the scopes around it, nearest first. -/
structure Scope where
  frame : Frame
  around : List Nat

/-- Scopes, known by their number. -/
structure Family where
  scopes : List Scope

namespace Family

/-- The family without scopes. -/
def empty : Family := ⟨[]⟩

/-- The number of the next scope to be added. -/
def size (fam : Family) : Nat :=
  fam.scopes.length

/-- Adds a scope that lies in no other. -/
def addRoot (fam : Family) (f : Frame) : Family :=
  ⟨fam.scopes ++ [⟨f, []⟩]⟩

/-- The numbers of a scope and of those around it, nearest first. -/
def chain (fam : Family) (i : Nat) : List Nat :=
  match fam.scopes[i]? with
  | some s => i :: s.around
  | none => []

/-- Adds an empty scope inside scope `i`. -/
def addChild (fam : Family) (i : Nat) : Family :=
  ⟨fam.scopes ++ [⟨.empty, fam.chain i⟩]⟩

/-- The frame of a scope. -/
def frame (fam : Family) (i : Nat) : Frame :=
  match fam.scopes[i]? with
  | some s => s.frame
  | none => .empty

/-- The environment seen from a scope. -/
def environment (fam : Family) (i : Nat) : Environment :=
  ⟨fam.frame i, (fam.chain i).tail.map fam.frame⟩

/-- Replaces the frame of a scope. -/
def setFrame (fam : Family) (i : Nat) (f : Frame) : Family :=
  ⟨fam.scopes.modify i fun s => { s with frame := f }⟩

/-- Binds a name in scope `i`. -/
def define (fam : Family) (i : Nat) (name : String) (v : Value) : Family :=
  fam.setFrame i ((fam.frame i).define name v)

/-- The nearest scope, from `i` outward, that binds a name. -/
def find? (fam : Family) (i : Nat) (name : String) : Option Nat :=
  (fam.chain i).find? fun j => (fam.frame j).binds name

/-- The value that a name has in scope `i`. -/
def lookup? (fam : Family) (i : Nat) (name : String) : Option Value :=
  (fam.environment i).lookup? name

/-- The nearest scope that binds a name given as a value. -/
def find (fam : Family) (i : Nat) (name : Value) : Except LookupFailure (Option Nat) := do
  return (← nameOf? name).bind (fam.find? i)

theorem find_symbol (fam : Family) (i : Nat) (l : Identity) (n : String) :
    fam.find i (.symbol l n) = .ok (fam.find? i n) := rfl

end Family

end DynamicLisp.Environment
