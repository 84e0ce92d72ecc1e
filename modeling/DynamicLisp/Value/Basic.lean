import DynamicLisp.Fault.Basic
import DynamicLisp.Native

/-!
Values. Programs and the data they compute have one type, since `begin` may be applied to data. A
compound value carries an identity, which tells values of equal contents apart; forms read from
text all have the identity `Identity.reader`, because no program can hold one of them as data.
-/
namespace DynamicLisp

/-- What distinguishes values built on different occasions. -/
abbrev Identity := Nat

/-- The identity of everything read from text. -/
def Identity.reader : Identity := 0

/-- A form of the language or a value computed by it. `text` is a kind foreign to the language,
which it passes on and cannot look into. -/
inductive Value where
  | bool (b : Bool)
  | int (n : Int)
  | nil
  | native (f : Native)
  | symbol (id : Identity) (name : String)
  | text (id : Identity) (s : String)
  | list (id : Identity) (items : List Value)
  | pair (id : Identity) (car cdr : Value)
  | lambda (id : Identity) (name : String) (params : List String) (body : List Value)
  deriving Inhabited

namespace Value

/-! ### Kinds -/

/-- Booleans are a kind of their own and no integers. -/
def isBoolean : Value → Bool
  | bool _ => true
  | _ => false

/-- Integers may be of any size, though programs compute only those in range. -/
def isInteger : Value → Bool
  | int _ => true
  | _ => false

/-- Symbols name values and are no texts. -/
def isSymbol : Value → Bool
  | symbol .. => true
  | _ => false

/-- Lists hold any number of values, also none. -/
def isList : Value → Bool
  | list .. => true
  | _ => false

/-- Procedures are the natives and what `define` makes of a parameter list and a body. -/
def isProcedure : Value → Bool
  | native _ | lambda .. => true
  | _ => false

/-- Whether a value, used as operator, receives its operands as forms. -/
def takesForms : Value → Bool
  | native f => f.takesForms
  | _ => false

/-- The number of arguments that a lambda requires. -/
def arity? : Value → Option Nat
  | lambda _ _ params _ => some params.length
  | _ => none

/-! ### Accessors -/

/-- The integer that a value is. -/
def asInt : Value → Except Fault Int
  | int n => .ok n
  | _ => .error .notInteger

/-- The elements of the list that a value is. -/
def asList : Value → Except Fault (List Value)
  | list _ items => .ok items
  | _ => .error .notList

/-- The name of the symbol that a value is. -/
def asSymbol : Value → Except Fault String
  | symbol _ name => .ok name
  | _ => .error .notSymbol

/-- The value itself, if it is a procedure. -/
def asProcedure (v : Value) : Except Fault Value :=
  if v.isProcedure then .ok v else .error .notProcedure

/-- The first part of a pair or of a list that is not empty. -/
def first (op : String) : Value → Except Fault Value
  | pair _ a _ => .ok a
  | list _ (a :: _) => .ok a
  | _ => .error (.notPair op)

/-- What follows the first part; of a list it is a new list, with the identity `fresh`. -/
def rest (op : String) (fresh : Identity) : Value → Except Fault Value
  | pair _ _ d => .ok d
  | list _ (_ :: items) => .ok (list fresh items)
  | _ => .error (.notPair op)

/-! ### The range of integers -/

/-- Integers of programs are signed words of 32 bits. -/
def inRange (n : Int) : Bool :=
  -2147483648 ≤ n && n ≤ 2147483647

theorem inRange_iff {n : Int} : inRange n ↔ -2147483648 ≤ n ∧ n ≤ 2147483647 := by
  simp [inRange]

/-- The integer, if it is in range. The fault names the number, so a number too long to be written
halts otherwise. -/
def checked (n : Int) : Except Halt Int :=
  if inRange n then .ok n
  else if Text.isWritable n then .error (.fault (.overflow n))
  else .error .longNumber

/-- An integer in range passes the check. -/
theorem checked_of_inRange {n : Int} (h : inRange n) : checked n = .ok n := by
  simp [checked, h]

end Value

end DynamicLisp
