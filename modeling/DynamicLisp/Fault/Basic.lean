import DynamicLisp.Fault.Kind
import DynamicLisp.Text.Numeral

/-!
Faults: what can be wrong with a program, by cause. A fault determines its kind and its message;
texts of values that a message shows are part of the cause.
-/
namespace DynamicLisp

/-- The cause for which a program is refused. -/
inductive Fault where
  | emptyProgram
  | missingCloseParen
  | unexpectedCloseParen
  | quoteWithoutList
  | emptyForm
  | pairForm (text : String)
  | undefined (name : String)
  | operatorNotProcedure (text : String)
  | notApplicable (text : String)
  | notProcedure
  | defineTarget
  | parameterNotSymbol (text : String)
  | conditionNotBoolean
  | notInteger
  | notPair (op : String)
  | notList
  | notSymbol
  | nameNotSymbol (text : String)
  | arity (name : String) (expected : Nat)
  | defineNothing
  | defineExcess
  | ifShort
  | ifExcess
  | operandCount (op : String) (given : Nat)
  | notOneOperand (op : String)
  | beginNothing
  | divisionByZero
  | overflow (n : Int)
  deriving DecidableEq, Repr

namespace Fault

/-- The kind under which a fault is reported. -/
def kind : Fault → Kind
  | emptyProgram => .emptyProgram
  | missingCloseParen => .missingCloseParen
  | unexpectedCloseParen => .unexpectedCloseParen
  | quoteWithoutList => .expectedOpenParenAfterQuote
  | emptyForm | pairForm _ => .illFormedExpression
  | undefined _ => .undefinedSymbol
  | operatorNotProcedure _ | notApplicable _ | notProcedure => .notCallable
  | defineTarget => .invalidDefineTarget
  | parameterNotSymbol _ => .nonSymbolInParameterList
  | conditionNotBoolean => .nonBooleanCondition
  | notInteger => .notAnInteger
  | notPair _ => .expectedPair
  | notList => .notAList
  | notSymbol | nameNotSymbol _ => .typing
  | arity .. => .arityMismatch
  | defineNothing | defineExcess => .illFormedDefine
  | ifExcess => .tooManyIfBranches
  | ifShort | operandCount .. | notOneOperand _ | beginNothing => .invalidArgumentCount
  | divisionByZero => .divisionByZero
  | overflow _ => .integerOverflow

/-- What the user is told. -/
def message : Fault → String
  | emptyProgram => "Empty program"
  | missingCloseParen => "Missing right paren"
  | unexpectedCloseParen => "Unexpected right paren"
  | quoteWithoutList => "Expected ( after quote"
  | emptyForm => "Ill-formed expression"
  | pairForm text => s!"Cannot evaluate pair {text}"
  | undefined name => s!"Undefined symbol {name}"
  | operatorNotProcedure text => s!"Expected function, found {text}"
  | notApplicable text => s!"Cannot apply non-function {text}"
  | notProcedure => "Not a callable"
  | defineTarget => "First argument to define must be a symbol or list"
  | parameterNotSymbol text => s!"Non-symbol in define arg list: {text}"
  | conditionNotBoolean => "First argument to 'if' must be a boolean"
  | notInteger => "Not an int"
  | notPair op => s!"{op} expects a pair"
  | notList => "Not a list"
  | notSymbol => "Not a symbol"
  | nameNotSymbol text => s!"Cannot define {text} as a symbol"
  | arity name expected => s!"{name} requires {expected} arguments"
  | defineNothing => "define takes 2 arguments"
  | defineExcess => "Ill formed define!"
  | ifShort => "if requires a condition and a then-expression"
  | ifExcess => "Too many arguments to 'if'"
  | operandCount op given => s!"Invalid number of operands to {op} {given}"
  | notOneOperand op => s!"{op} expects 1 argument"
  | beginNothing => "Begin requires at least one argument"
  | divisionByZero => "Division by zero"
  | overflow n => s!"Integer overflow: {Text.writeInt n}"

end Fault

/-- Why a computation ends without a value: a fault of the program, a number beyond what is read
or written in decimal, or too deep a nesting of evaluations. -/
inductive Halt where
  | fault (f : Fault)
  | longNumeral (digits : Nat)
  | longNumber
  | nesting
  deriving DecidableEq, Repr

namespace Halt

/-- What the user is told. -/
def message : Halt → String
  | fault f => f.message
  | longNumeral digits =>
    s!"Exceeds the limit ({Text.Numeral.maxDigits} digits) for integer string conversion: " ++
      s!"value has {digits} digits; use sys.set_int_max_str_digits() to increase the limit"
  | longNumber =>
    s!"Exceeds the limit ({Text.Numeral.maxDigits} digits) for integer string conversion; " ++
      "use sys.set_int_max_str_digits() to increase the limit"
  | nesting => "Evaluations are nested too deeply"

end Halt

end DynamicLisp
