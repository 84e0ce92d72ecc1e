import DynamicLisp.Native
import DynamicLisp.Value.Equality

/-!
What the primitives compute. Sums and products skip what is no integer; all arithmetic is exact and
refused when the result leaves the range. Lists and pairs built here get the identity offered.
-/
namespace DynamicLisp

namespace Primitive

/-- The integers among some values. -/
def integers (args : List Value) : List Int :=
  args.filterMap fun v =>
    match v with
    | .int n => some n
    | _ => none

/-- The integers of exactly two operands. -/
def twoIntegers (op : String) : List Value → Except Fault (Int × Int)
  | [a, b] => do return (← a.asInt, ← b.asInt)
  | args => .error (.operandCount op args.length)

/-- Exactly one operand. -/
def oneOperand (op : String) : List Value → Except Fault Value
  | [a] => .ok a
  | args => .error (.operandCount op args.length)

/-- Exactly two operands. -/
def twoOperands (op : String) : List Value → Except Fault (Value × Value)
  | [a, b] => .ok (a, b)
  | args => .error (.operandCount op args.length)

/-- The operand of a part of a pair. -/
def pairOperand (op : String) : List Value → Except Fault Value
  | [a] => .ok a
  | _ => .error (.notOneOperand op)

/-- The elements of some lists, in order. -/
def concat : List Value → Except Fault (List Value)
  | [] => .ok []
  | v :: vs => do return (← v.asList) ++ (← concat vs)

/-- An integer in range, as a value. -/
def integer (n : Int) : Except Halt Value :=
  (Value.checked n).map .int

/-- The truth of a comparison of two integers. -/
def compare (op : String) (test : Int → Int → Bool) (args : List Value) : Except Fault Value := do
  let (a, b) ← twoIntegers op args
  return .bool (test a b)

/-- The quotient truncated toward zero. -/
def quotient (args : List Value) : Except Fault Int := do
  let (a, b) ← twoIntegers "divide" args
  if b = 0 then throw .divisionByZero
  return a.tdiv b

/-- What a primitive makes of its arguments. -/
def compute (p : Primitive) (fresh : Identity) (args : List Value) : Except Halt Value :=
  match p with
  | add => integer ((integers args).foldr (· + ·) 0)
  | mul => integer ((integers args).foldr (· * ·) 1)
  | sub => do
    let (a, b) ← (twoIntegers "subtract" args).mapError .fault
    integer (a - b)
  | div => do integer (← (quotient args).mapError .fault)
  | abs => do integer (← ((oneOperand "abs" args).bind Value.asInt).mapError .fault).natAbs
  | gt => (compare ">" (fun a b => a > b) args).mapError .fault
  | lt => (compare "<" (fun a b => a < b) args).mapError .fault
  | ge => (compare ">=" (fun a b => a ≥ b) args).mapError .fault
  | le => (compare "<=" (fun a b => a ≤ b) args).mapError .fault
  | numEq => (compare "=" (fun a b => a = b) args).mapError .fault
  | cons => ((twoOperands "cons" args).map fun ab => .pair fresh ab.1 ab.2).mapError .fault
  | car => ((pairOperand "CAR" args).bind (Value.first "CAR")).mapError .fault
  | cdr => ((pairOperand "CDR" args).bind (Value.rest "CDR" fresh)).mapError .fault
  | list => .ok (.list fresh args)
  | append => ((concat args).map (.list fresh)).mapError .fault
  | isList => ((oneOperand "list?" args).map fun v => .bool v.isList).mapError .fault
  | eq => ((twoOperands "eq?" args).map fun ab => .bool (ab.1.same ab.2)).mapError .fault
  | equal => ((twoOperands "equal?" args).map fun ab => .bool (ab.1.equal ab.2)).mapError .fault

end Primitive

end DynamicLisp
