import DynamicLisp.Catalog
import DynamicLisp.Proofs.Eval.Halting
import DynamicLisp.Proofs.Eval.Shrinking

/-! The bound on nesting. Main statement: it can do no more than break an evaluation off; one that
it does not break off takes the same course under every larger bound. -/
namespace DynamicLisp.Eval
variable {depth depth' : Nat} {form : Value} {forms : List Value} {m : Machine}

/-- An evaluation that stays within a bound takes the same course under a larger one. -/
theorem run_evaluate_of_le (hd : depth ≤ depth') (h : ¬ Halts (evaluate depth form) m .nesting) :
    (evaluate depth' form).run m = (evaluate depth form).run m := by
  induction depth generalizing depth' form m with
  | zero => exact (h rfl).elim
  | succ depth ih =>
    cases depth' with
    | zero => exact (Nat.not_succ_le_zero depth hd).elim
    | succ depth' =>
      -- what the step enters stays within the bound too: otherwise it would break off the step
      refine (run_step_congr fun f m' hf => ?_).symm
      exact (ih (Nat.le_of_succ_le_succ hd) fun hn => h (halts_step_of_enters hf hn)).symm

/-- Two bounds within which an evaluation stays make no difference to it. -/
theorem run_evaluate_eq (h : ¬ Halts (evaluate depth form) m .nesting)
    (h' : ¬ Halts (evaluate depth' form) m .nesting) :
    (evaluate depth form).run m = (evaluate depth' form).run m := by
  rcases Nat.le_total depth depth' with hd | hd
  · exact (run_evaluate_of_le hd h).symm
  · exact run_evaluate_of_le hd h'

theorem run_each_of_le (hd : depth ≤ depth')
    (h : ¬ Halts (each (evaluate depth) forms) m .nesting) :
    (each (evaluate depth') forms).run m = (each (evaluate depth) forms).run m :=
  (run_each_congr fun f m' hf =>
    (run_evaluate_of_le hd fun hn => h (halts_each.mpr ⟨f, m', hf, hn⟩)).symm).symm

/-- Evaluations that come to be nested more deeply than the bound allows end the whole. -/
theorem halts_of_nests {k : Nat} (h : Nests depth form m k) (hk : depth < k) :
    Halts (evaluate depth form) m .nesting := by
  induction h with
  | here =>
    obtain rfl := Nat.lt_one_iff.mp hk
    rfl
  | within hf _ ih => exact halts_step_of_enters hf (ih (Nat.lt_of_succ_lt_succ hk))

/-- The bound on nesting can do no more than break an evaluation off. One that it does not break off
ends in the same way under every larger bound, with the same scopes, identities and events; under
any two bounds an evaluation ends alike, or one of the bounds breaks it off. Where evaluations come
to be nested more deeply than the bound allows, the whole is broken off: nothing that it is part of
goes on with a value or ends with a fault instead. And it is broken off for no other reason, since
that comes from an evaluation inside, down to the bound. -/
theorem bound_breaks_off_only (form : Value) (m : Machine) :
    (∀ depth depth', depth ≤ depth' → ¬ Halts (evaluate depth form) m .nesting →
      (evaluate depth' form).run m = (evaluate depth form).run m) ∧
    (∀ depth depth', (evaluate depth form).run m = (evaluate depth' form).run m ∨
      Halts (evaluate depth form) m .nesting ∨ Halts (evaluate depth' form) m .nesting) ∧
    (∀ depth k, Nests depth form m k → depth < k → Halts (evaluate depth form) m .nesting) ∧
    ∀ depth, Halts (evaluate (depth + 1) form) m .nesting →
      ∃ f m', Enters (evaluate depth) form m f m' ∧ Halts (evaluate depth f) m' .nesting := by
  refine ⟨fun depth depth' hd h => run_evaluate_of_le hd h, fun depth depth' => ?_,
    fun depth k h hk => halts_of_nests h hk, fun depth h => enters_of_nesting h⟩
  by_cases h : Halts (evaluate depth form) m .nesting
  · exact .inr (.inl h)
  · by_cases h' : Halts (evaluate depth' form) m .nesting
    · exact .inr (.inr h')
    · exact .inl (run_evaluate_eq h h')

/-! A procedure that calls itself until nothing is left, and has forgotten a name then. -/

abbrev countdown : Value :=
  .lambda 1 "down" ["n"] [.list 0 [.symbol 0 "if", .list 0 [.symbol 0 "=", .symbol 0 "n", .int 0],
    .symbol 0 "m", .list 0 [.symbol 0 "down", .list 0 [.symbol 0 "-", .symbol 0 "n", .int 1]]]]

abbrev launching : Machine :=
  ⟨Catalog.environment.define "down" countdown, 2, []⟩

abbrev descending : Value :=
  .list 0 [.symbol 0 "down", .int 2]

theorem bound_breaks_off_only_countdown :
    Halts (evaluate 7 descending) launching .nesting ∧
      Halts (evaluate 8 descending) launching (.fault (.undefined "m")) ∧
      (evaluate 90 descending).run launching = (evaluate 8 descending).run launching := by
  have h : Halts (evaluate 8 descending) launching (.fault (.undefined "m")) := by cbv
  have hn : ¬ Halts (evaluate 8 descending) launching .nesting := by
    rw [Halts, h]
    simp
  exact ⟨by cbv, h, (bound_breaks_off_only descending launching).1 8 90 (by decide) hn⟩

end DynamicLisp.Eval
