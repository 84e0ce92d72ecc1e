import DynamicLisp.Value.Rendering
import DynamicLisp.Value.Size

/-!
Callees: what a call comes to when every `apply` on the way has handed its operands on. Each
`apply` takes its last operand apart, so a chain of them ends.
-/
namespace DynamicLisp

/-- A procedure other than `apply`. -/
inductive Callee where
  | lambda (name : String) (params : List String) (body : List Value)
  | primitive (p : Primitive)
  | begin

namespace Callee

/-- The operands `first :: others` with the last one, a list, replaced by its elements. -/
def spread (first : Value) : (others : List Value) → Except Fault (List Value)
  | [] => first.asList
  | next :: others => (spread next others).map (first :: ·)

/-- Spreading loses at least the list that was taken apart. -/
theorem sizes_spread {first : Value} {others vs : List Value} (h : spread first others = .ok vs) :
    Value.sizes vs < first.size + Value.sizes others := by
  induction others generalizing first vs with
  | nil => cases first <;> simp_all [spread, Value.asList, Value.size, Value.sizes]
  | cons next others ih =>
    simp only [spread] at h
    cases hs : spread next others with
    | error f => simp [hs, Except.map] at h
    | ok ws =>
      simp only [hs, Except.map, Except.ok.injEq] at h
      subst h
      have := ih hs
      simp only [Value.sizes]
      omega

/-- The procedure finally called, and its arguments. -/
def resolve (fn : Value) (args : List Value) : Except Halt (Callee × List Value) :=
  match fn with
  | .lambda _ name params body => .ok (.lambda name params body, args)
  | .native (.primitive p) => .ok (.primitive p, args)
  | .native .begin => .ok (.begin, args)
  | .native .apply =>
    match args with
    | f :: first :: others =>
      if f.isProcedure then
        match _h : spread first others with
        | .ok vs => resolve f vs
        | .error e => .error (.fault e)
      else .error (.fault .notProcedure)
    | _ => .error (.fault (.operandCount "apply" args.length))
  | other => do throw (.fault (.notApplicable (← other.inspect?)))
termination_by Value.sizes args
decreasing_by
  have := sizes_spread _h
  simp only [Value.sizes]
  omega

end Callee

end DynamicLisp
