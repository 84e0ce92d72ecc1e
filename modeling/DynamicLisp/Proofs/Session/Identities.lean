import DynamicLisp.Proofs.Eval.Application
import DynamicLisp.Proofs.Session.Life

/-! Identities in sessions. What a session holds has none of the identities that are still to come:
texts bring in nothing but that of the reader, and evaluation makes each new one only once. So a
call that is read from a text may go through `apply` in any session. -/
namespace DynamicLisp

namespace Value
variable {i k : Identity} {items : List Value} {v : Value}

theorem isBelow_list : (list i items).IsBelow k ↔ i < k ∧ ∀ v ∈ items, v.IsBelow k := by
  refine forall_parts_list.trans (and_congr_left fun _ => ?_)
  exact ⟨fun h => h i rfl, fun h j hj => Option.some.inj hj ▸ h⟩

end Value

open Eval

private theorem renames_finish {α : Type} {r : Identity → Identity} {f : α → α} (s : Script)
    (a : α) : Renames r f (s.finish a) (s.finish (f a)) := by
  unfold Script.finish
  cases s.defect with
  | none => exact renames_pure a
  | some e => exact renames_throw e

private theorem isBelow_of_text {k : Identity} (hk : 0 < k) (code : String) :
    ∀ f ∈ (Script.ofText code).forms, f.IsBelow k := by
  refine Script.forms_induction (P := Value.IsBelow k) ?_ ?_ ?_ code
  · exact fun n _ => Value.forall_parts_of_eq rfl fun i hi => nomatch hi
  · exact fun x => Value.forall_parts_of_eq rfl fun i hi => Option.some.inj hi ▸ hk
  · exact fun items hitems => Value.isBelow_list.mpr ⟨hk, hitems⟩

/-- Nothing bound in a session has an identity that is still to be drawn. -/
theorem Session.isBelow_of_reachable {s : Session} (h : s.Reachable) :
    0 < s.machine.fresh ∧ s.machine.env.Holds (Value.IsBelow s.machine.fresh) := by
  have hev (k depth : Nat) : RenamesForms (shift k) (evaluate depth) :=
    renamesForms_evaluate shift_injective depth
  induction h with
  | start depth =>
    refine ⟨Nat.zero_lt_one, Catalog.holds (fun f => ?_) fun b => ?_⟩
    · exact Value.forall_parts_of_eq rfl fun i hi => nomatch hi
    · exact Value.forall_parts_of_eq rfl fun i hi => nomatch hi
  | @eval s h code ih =>
    have hr : ∀ k, s.machine.fresh ≤ k → Renames (shift k) (Value.rename (shift k))
        ((Script.ofText code).last s.depth) ((Script.ofText code).last s.depth) := by
      intro k hk
      have hrow := renames_inOrder (hev k s.depth) .nil (Script.ofText code).forms
      rw [map_rename_shift_eq (isBelow_of_text ih.1 code) hk] at hrow
      exact renames_bind hrow fun v => renames_finish _ v
    refine ⟨lt_of_lt_of_le ih.1 ((hr _ le_rfl).grows _), ?_⟩
    exact (Renames.settled (f := Value.rename) hr ih.2).2
  | @evalEach s h code ih =>
    have hr : ∀ k, s.machine.fresh ≤ k → Renames (shift k) (List.map (Value.rename (shift k)))
        ((Script.ofText code).values s.depth) ((Script.ofText code).values s.depth) := by
      intro k hk
      have hrow := renames_each (hev k s.depth) (Script.ofText code).forms
      rw [map_rename_shift_eq (isBelow_of_text ih.1 code) hk] at hrow
      exact renames_bind hrow fun vs => renames_finish _ vs
    refine ⟨lt_of_lt_of_le ih.1 ((hr _ le_rfl).grows _), ?_⟩
    exact (Renames.settled (f := fun r => List.map (Value.rename r)) hr ih.2).2
  | limit h depth ih => exact ih

/-- In a session, a call in a text ends as the same call through `apply` does, with the last
operands gathered in a list, if the operator yields a procedure other than `begin`. Nothing has to
be known about identities here. -/
theorem Session.sameEnd_throughApply {s : Session} (hs : s.Reachable) {code : String}
    {p fn : Value} {es fs : List Value} {i : Identity} {m : Machine} {depth₀ : Nat}
    (hcall : .list i (p :: (es ++ fs)) ∈ (Script.ofText code).forms)
    (hspecial : Special.ofHead? p = none)
    (hp : (evaluate depth₀ p).run s.machine = (.ok fn, m)) (hproc : fn.isProcedure)
    (hb : fn ≠ .native .begin) (j k : Identity) (depth : Nat) :
    (¬ Halts (evaluate depth (.list i (p :: (es ++ fs)))) s.machine .nesting →
        SameEnd ((evaluate depth (.list i (p :: (es ++ fs)))).run s.machine)
          ((evaluate (depth + 1) (throughApply j k p es fs)).run s.machine)) ∧
      (¬ Halts (evaluate depth (throughApply j k p es fs)) s.machine .nesting →
        SameEnd ((evaluate depth (.list i (p :: (es ++ fs)))).run s.machine)
          ((evaluate depth (throughApply j k p es fs)).run s.machine)) := by
  obtain ⟨hfresh, hm⟩ := isBelow_of_reachable hs
  have hforms : ∀ f ∈ p :: (es ++ fs), f.IsBelow s.machine.fresh :=
    (Value.isBelow_list.mp (isBelow_of_text hfresh code _ hcall)).2
  exact ⟨sameEnd_of_call hspecial hp hproc hb hforms hm,
    sameEnd_of_throughApply hspecial hp hproc hb hforms hm⟩

end DynamicLisp
