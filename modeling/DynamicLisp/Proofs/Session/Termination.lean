import DynamicLisp.Proofs.Eval.Shrinking
import DynamicLisp.Proofs.Session.Endings

/-! Programs without definitions. Main statement: they end, with a value that is no greater than the
program, with a fault, or at a number that is too long to be written; the nesting of evaluations
does not go beyond the size of the program. -/
namespace DynamicLisp.Eval
open Discipline Discipline.Scoping
variable {depth : Nat} {form : Value} {m : Machine}

/-- An evaluation that exhausts the bound on its nesting has come to more evaluations inside one
another than the bound allows. -/
theorem nests_of_nesting (hform : form.IsRanged) (hm : m.env.Holds Value.IsRanged)
    (h : Halts (evaluate depth form) m .nesting) : Nests depth form m (depth + 1) := by
  induction depth generalizing form m with
  | zero => exact .here
  | succ depth ih =>
    cases origin_of_step (fun _ => Value.isShowable_of_isRanged hform) h with
    | inner hf he =>
      obtain ⟨hform', hm'⟩ := holds_of_enters (evaluates_evaluate ranged.holding depth) hform hm hf
      exact .within hf (ih hform' hm' he)
    | primitive hs hc he => cases refusal_of_calls hform hm hc he

/-- The form holds no definition. -/
def IsUndefining (form : Value) : Prop :=
  ∀ i j items, Value.list i (.symbol j "define" :: items) ∉ form.parts

private theorem isTame_of_read {ts : List Token} (h : (Reading.ofTokens ts).outcome = .ok form)
    (hdef : IsUndefining form) : form.IsTame := by
  refine Reading.outcome_induction (P := fun v => IsUndefining v → v.IsTame) ?_ ?_ ?_ h hdef
  · exact fun n _ _ => Value.forall_parts_of_eq rfl ⟨by simp, rfl⟩
  · exact fun x _ => Value.forall_parts_of_eq rfl ⟨by simp, rfl⟩
  · intro items hitems hdef
    refine Value.isTame_list.mpr ⟨?_, fun v hv => hitems v hv fun i j rest hr => ?_⟩
    · rintro j rest rfl
      refine hdef .reader j rest ?_
      rw [Value.parts_list]
      exact .head _
    · refine hdef i j rest ?_
      rw [Value.parts_list]
      exact .tail _ (List.mem_flatMap.mpr ⟨v, hv, hr⟩)

private theorem holds_catalog_atoms : Catalog.environment.Holds IsAtom :=
  Catalog.holds (fun _ => ⟨Value.forall_parts_of_eq rfl ⟨rfl, rfl⟩, rfl⟩)
    fun _ => ⟨Value.forall_parts_of_eq rfl ⟨rfl, rfl⟩, rfl⟩

/-- Programs without definitions terminate. A form that has been read and holds no definition ends,
if the nesting allowed is no less than its size, with a value, with a fault, or because it computes
a number that is too long to be written. Under any bound, the evaluations that are inside one
another at a moment are no more than the form has parts, and a value has no more parts than the
form. -/
theorem terminates_without_definitions (source : String) (form : Value)
    (hread : (Reading.ofTokens (Token.ofText source)).outcome = .ok form)
    (hdef : IsUndefining form) (depth : Nat) :
    (form.size ≤ depth →
      (∃ v, ((evaluate depth form).run Catalog.machine).1 = .ok v) ∨
      (∃ f, Halts (evaluate depth form) Catalog.machine (.fault f)) ∨
      (Halts (evaluate depth form) Catalog.machine .longNumber ∧
        Overruns depth form Catalog.machine)) ∧
    (∀ k, Nests depth form Catalog.machine k → k ≤ form.size) ∧
    ∀ v, ((evaluate depth form).run Catalog.machine).1 = .ok v → v.size ≤ form.size := by
  have hranged : form.IsRanged := lasting_ranged.form_of_outcome hread
  have htame := isTame_of_read hread hdef
  have hnests : ∀ k, Nests depth form Catalog.machine k → k ≤ form.size := fun k hk =>
    le_size_of_nests htame holds_catalog_atoms hk
  refine ⟨fun hsize => ?_, hnests, fun v hv => ?_⟩
  · cases hr : ((evaluate depth form).run Catalog.machine).1 with
    | ok v => exact .inl ⟨v, rfl⟩
    | error e =>
      cases ending_of_evaluate hranged lasting_ranged.holds_catalog hr with
      | fault hf => exact .inr (.inl ⟨_, hr⟩)
      | nesting =>
        -- one evaluation more than the bound would be nested, and so more than the form has parts
        have hk := hnests _ (nests_of_nesting hranged lasting_ranged.holds_catalog hr)
        omega
      | overlong ho => exact .inr (.inr ⟨hr, ho⟩)
  · exact ((shrinks_evaluate depth form htame Catalog.machine holds_catalog_atoms).2 v hv).2

/-! Here `begin` evaluates a list that has been computed. -/

abbrev computing : String :=
  "(apply begin (list (list list + (list * 2 3))))"

abbrev computingForm : Value :=
  .list 0 [.symbol 0 "apply", .symbol 0 "begin", .list 0 [.symbol 0 "list",
    .list 0 [.symbol 0 "list", .symbol 0 "list", .symbol 0 "+",
      .list 0 [.symbol 0 "list", .symbol 0 "*", .int 2, .int 3]]]]

theorem terminates_without_definitions_computing :
    (Reading.ofTokens (Token.ofText computing)).outcome = .ok computingForm ∧
      IsUndefining computingForm ∧ computingForm.size = 14 ∧
      ((evaluate 14 computingForm).run Catalog.machine).1 =
        .ok (.list 5 [.native (.primitive .add), .int 6]) ∧
      (Value.list 5 [.native (.primitive .add), .int 6]).size ≤ computingForm.size := by
  have hread : (Reading.ofTokens (Token.ofText computing)).outcome = .ok computingForm := by cbv
  have hdef : IsUndefining computingForm := by
    intro i j items
    simp [Value.parts, Value.partsOfAll]
  have hv : ((evaluate 14 computingForm).run Catalog.machine).1 =
      .ok (.list 5 [.native (.primitive .add), .int 6]) := by cbv
  refine ⟨hread, hdef, by simp [Value.size, Value.sizes], hv, ?_⟩
  exact (terminates_without_definitions computing computingForm hread hdef 14).2.2 _ hv

end DynamicLisp.Eval
