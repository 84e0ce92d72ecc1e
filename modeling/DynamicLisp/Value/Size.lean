import DynamicLisp.Value.Basic

/-!
The size of a value: how many values it is made of, itself included. The body of a lambda counts,
its parameters do not.
-/
namespace DynamicLisp.Value

mutual

/-- The number of values in a value. -/
def size : Value → Nat
  | list _ items => sizes items + 1
  | pair _ a d => a.size + d.size + 1
  | lambda _ _ _ body => sizes body + 1
  | _ => 1

/-- The number of values in a row of values. -/
def sizes : List Value → Nat
  | [] => 0
  | v :: vs => v.size + sizes vs

end

theorem size_pos (v : Value) : 0 < v.size := by
  cases v <;> simp [size]

end DynamicLisp.Value
