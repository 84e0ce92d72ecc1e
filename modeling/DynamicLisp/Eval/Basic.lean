import DynamicLisp.Eval.Callee
import DynamicLisp.Eval.Machine
import DynamicLisp.Eval.Primitives

/-!
Evaluation. One step evaluates a form given a way to evaluate others; evaluation iterates the step
up to a bound on its nesting. A lambda is called in a scope inside that of its caller, not of its
definition.
-/
namespace DynamicLisp.Eval

/-- The forms with rules of their own. -/
inductive Special where
  | define
  | choice
  deriving DecidableEq, Repr

/-- The special form that a head announces. -/
def Special.ofHead? : Value → Option Special
  | .symbol _ name =>
    if name = "define" then some .define
    else if name = "if" then some .choice
    else none
  | _ => none

section Step

variable (ev : Value → Eval Value)

/-- Evaluates forms from left to right and keeps all values. -/
def each : List Value → Eval (List Value)
  | [] => pure []
  | form :: forms => do
    let v ← ev form
    let vs ← each forms
    pure (v :: vs)

/-- Evaluates forms from left to right and keeps the last value; without forms it is `last`. -/
def inOrder (last : Value) : List Value → Eval Value
  | [] => pure last
  | form :: forms => do inOrder (← ev form) forms

/-- Calls a procedure with its arguments, or `begin` with its forms. -/
def call : Callee → List Value → Eval Value
  | .lambda name params body, args =>
    if args.length = params.length then
      within (.ofParameters params args) (inOrder ev .nil body)
    else fail (.arity name params.length)
  | .primitive p, args => do ofHalt (p.compute (← newIdentity) args)
  | .begin, [] => fail .beginNothing
  | .begin, form :: forms => inOrder ev .nil (form :: forms)

/-- Applies a value to arguments. -/
def applyWith (fn : Value) (args : List Value) : Eval Value := do
  let (callee, args) ← ofHalt (Callee.resolve fn args)
  call ev callee args

/-- The names in a parameter list. -/
def parameterNames : List Value → Except Halt (List String)
  | [] => .ok []
  | .symbol _ name :: params => (parameterNames params).map (name :: ·)
  | other :: _ => do throw (.fault (.parameterNotSymbol (← other.inspect?)))

/-- Definitions. The name is bound to a value, to nil, or to a lambda of the forms that follow. -/
def defineForm : List Value → Eval Value
  | [] => fail .defineNothing
  | .symbol _ name :: body =>
    match body with
    | [] => do
      report (.definedVariable name)
      define name .nil
      pure .nil
    | [form] => do
      let v ← ev form
      report (.definedVariable name)
      define name v
      pure .nil
    | _ => fail .defineExcess
  | .list _ (.symbol _ name :: params) :: body => do
    let params ← ofHalt (parameterNames params)
    report (.definedFunction name params.length)
    define name (.lambda (← newIdentity) name params body)
    pure .nil
  | _ => fail .defineTarget

/-- Choices. Only the branch chosen is evaluated, and a surplus one is found only when it is looked
for. -/
def choiceForm : List Value → Eval Value
  | condition :: consequent :: alternatives => do
    match ← ev condition with
    | .bool true => ev consequent
    | .bool false =>
      match alternatives with
      | [] => pure .nil
      | [alternative] => ev alternative
      | _ => fail .ifExcess
    | _ => fail .conditionNotBoolean
  | _ => fail .ifShort

/-- What a procedure is given for its operands: their values, or the forms themselves. -/
def arguments (fn : Value) (operands : List Value) : Eval (List Value) :=
  if fn.takesForms then pure operands else each ev operands

/-- Calls what the head evaluates to. -/
def callForm (head : Value) (operands : List Value) : Eval Value := do
  let fn ← ev head
  if fn.isProcedure then applyWith ev fn (← arguments ev fn operands)
  else fail (.operatorNotProcedure (← ofHalt head.display?))

/-- Evaluates a form by means of `ev` for the forms that it needs. -/
def step : Value → Eval Value
  | .symbol _ name => lookup name
  | .list _ [] => fail .emptyForm
  | .list _ (head :: operands) =>
    match Special.ofHead? head with
    | some .define => defineForm ev operands
    | some .choice => choiceForm ev operands
    | none => callForm ev head operands
  | .pair id a d => do fail (.pairForm (← ofHalt (Value.pair id a d).display?))
  | v => pure v

end Step

/-- Evaluates a form with at most `depth` evaluations inside one another. -/
def evaluate : (depth : Nat) → Value → Eval Value
  | 0, _ => throw .nesting
  | depth + 1, form => step (evaluate depth) form

/-- Applies a value to arguments; the evaluations needed may be nested up to `depth`. -/
def apply (depth : Nat) (fn : Value) (args : List Value) : Eval Value :=
  applyWith (evaluate depth) fn args

end DynamicLisp.Eval
