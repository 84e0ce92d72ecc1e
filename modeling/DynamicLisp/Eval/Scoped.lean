import DynamicLisp.Environment.Family
import DynamicLisp.Eval.Machine

/-!
Evaluation in a scope of a family. A computation changes no frame but the innermost, so that frame
alone is put back.
-/
namespace DynamicLisp.Environment.Family

/-- Carries out a computation in scope `i`, given an identity that no value has yet: its outcome,
the family with the definitions made, and the next identity. -/
def perform {α : Type} (fam : Family) (i : Nat) (fresh : Identity) (x : Eval α) :
    Except Halt α × Family × Identity :=
  let (r, m) := x.run ⟨fam.environment i, fresh, []⟩
  (r, fam.setFrame i m.env.inner, m.fresh)

end DynamicLisp.Environment.Family
