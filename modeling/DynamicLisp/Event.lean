/-!
Events worth a line of diagnostics.
-/
namespace DynamicLisp

/-- Something that happened on the way to a result. -/
inductive Event where
  | programRead (tokens : Nat)
  | programFailed (message : String)
  | definedVariable (name : String)
  | definedFunction (name : String) (arity : Nat)
  deriving DecidableEq, Repr

namespace Event

/-- The part of the program that reports an event. -/
def reporter : Event → String
  | programRead _ | programFailed _ => "schemelet.interpreter"
  | definedVariable _ | definedFunction .. => "schemelet.evaluation.special_forms.define_form"

/-- What is reported. -/
def message : Event → String
  | programRead tokens => s!"run_program: {tokens} tokens"
  | programFailed message => s!"run_program failed: {message}"
  | definedVariable name => s!"define variable {name}"
  | definedFunction name arity => s!"define function {name}/{arity}"

/-- The line of diagnostics. -/
def line (e : Event) : String :=
  e.reporter ++ ": " ++ e.message

end Event

end DynamicLisp
