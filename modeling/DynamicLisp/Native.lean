/-!
The native procedures. Primitives compute a value from values; `apply` and `begin` go on evaluating
in the scope of their caller. Each native has the name under which programs find it and the name
of the routine that carries it out, which shows in inspections.
-/
namespace DynamicLisp

/-- A native that computes a value from the values of its operands. -/
inductive Primitive where
  | add
  | mul
  | sub
  | div
  | gt
  | lt
  | ge
  | le
  | numEq
  | abs
  | append
  | car
  | cdr
  | cons
  | eq
  | equal
  | list
  | isList
  deriving DecidableEq, Repr

/-- A procedure that the language provides. -/
inductive Native where
  | primitive (p : Primitive)
  | apply
  | begin
  deriving DecidableEq, Repr

namespace Native

/-- All natives, in the order of the catalog. -/
def all : List Native :=
  [primitive .add, primitive .mul, primitive .sub, primitive .div, primitive .gt, primitive .lt,
    primitive .ge, primitive .le, primitive .numEq, primitive .abs, primitive .append, apply, begin,
    primitive .car, primitive .cdr, primitive .cons, primitive .eq, primitive .equal,
    primitive .list, primitive .isList]

/-- The name by which programs call a native. -/
def name : Native → String
  | primitive .add => "+"
  | primitive .mul => "*"
  | primitive .sub => "-"
  | primitive .div => "/"
  | primitive .gt => ">"
  | primitive .lt => "<"
  | primitive .ge => ">="
  | primitive .le => "<="
  | primitive .numEq => "="
  | primitive .abs => "abs"
  | primitive .append => "append"
  | apply => "apply"
  | begin => "begin"
  | primitive .car => "car"
  | primitive .cdr => "cdr"
  | primitive .cons => "cons"
  | primitive .eq => "eq?"
  | primitive .equal => "equal?"
  | primitive .list => "list"
  | primitive .isList => "list?"

/-- The name of the routine behind a native. -/
def routine : Native → String
  | primitive .add => "add"
  | primitive .mul => "mul"
  | primitive .sub => "sub"
  | primitive .div => "div"
  | primitive .gt => "gt"
  | primitive .lt => "lt"
  | primitive .ge => "gte"
  | primitive .le => "lte"
  | primitive .numEq => "num_equals"
  | primitive .abs => "absolute"
  | primitive .append => "append"
  | apply => "apply"
  | begin => "begin"
  | primitive .car => "car"
  | primitive .cdr => "cdr"
  | primitive .cons => "cons"
  | primitive .eq => "eq"
  | primitive .equal => "equal"
  | primitive .list => "list_builtin"
  | primitive .isList => "is_list"

/-- Whether a native receives its operands as forms, not as values. -/
def takesForms : Native → Bool
  | begin => true
  | _ => false

/-- The native that programs find under a name. -/
def ofName? (s : String) : Option Native :=
  all.find? (·.name = s)

/-- Every native is in the catalog. -/
theorem mem_all (f : Native) : f ∈ all := by
  cases f with
  | primitive p => cases p <;> decide
  | apply => decide
  | begin => decide

/-- A native is found under its name. -/
@[simp]
theorem ofName?_name (f : Native) : ofName? f.name = some f := by
  cases f with
  | primitive p => cases p <;> rfl
  | apply => rfl
  | begin => rfl

/-- Different natives have different names. -/
theorem name_injective {f g : Native} (h : f.name = g.name) : f = g :=
  Option.some.inj (by rw [← ofName?_name f, h, ofName?_name])

end Native

end DynamicLisp
