import DynamicLisp.Proofs.Eval.Halting
import DynamicLisp.Proofs.Eval.Renaming
import DynamicLisp.Proofs.Eval.Rows

/-! The moments of evaluations and their order. `Arises` says which values are there at a moment,
and `Elapses` which moments come later. Main statement: identities are drawn in this order, so a
value made at a moment has a later identity than all that were there before. -/
namespace DynamicLisp

namespace Environment

/-- A value is bound in one of the frames. -/
def Binds (e : Environment) (v : Value) : Prop :=
  ∃ f ∈ e.frames, ∃ b ∈ f.entries, b.2 = v

theorem binds_of_lookup? {e : Environment} {x : String} {v : Value} (h : e.lookup? x = some v) :
    e.Binds v := by
  obtain ⟨f, hf, hl⟩ := List.exists_of_findSome?_eq_some h
  exact ⟨f, hf, _, Frame.mem_entries_of_lookup? hl, rfl⟩

theorem Binds.of_pop {e : Environment} {v : Value} (h : e.pop.Binds v) : e.Binds v := by
  obtain ⟨f, hf, hb⟩ := h
  obtain ⟨inner, outer⟩ := e
  cases outer with
  | nil => exact ⟨f, hf, hb⟩
  | cons g gs => exact ⟨f, .tail inner hf, hb⟩

theorem Holds.of_binds {e : Environment} {P : Value → Prop} {v : Value} (h : e.Holds P)
    (hv : e.Binds v) : P v := by
  obtain ⟨f, hf, b, hb, rfl⟩ := hv
  exact h f hf b hb

end Environment

namespace Eval

/-- In the evaluation of a form, with a bound on the nesting and from some machine, a value is there
when the machine is `t`: it is bound at the beginning, at the end or in a scope that has been
opened, it is what the form gives, or it arises in an evaluation to which this one comes. -/
inductive Arises : Nat → Value → Machine → Machine → Value → Prop where
  | before {depth : Nat} {f v : Value} {m : Machine} (hv : m.env.Binds v) : Arises depth f m m v
  | after {depth : Nat} {f v : Value} {m : Machine}
      (hv : ((evaluate depth f).run m).2.env.Binds v) :
      Arises depth f m ((evaluate depth f).run m).2 v
  | given {depth : Nat} {f v : Value} {m t : Machine}
      (hv : (evaluate depth f).run m = (.ok v, t)) : Arises depth f m t v
  | opened {depth : Nat} {i : Identity} {head v : Value} {operands args body : List Value}
      {name : String} {params : List String} {m m' : Machine}
      (hs : Special.ofHead? head = none)
      (hc : Calls (evaluate depth) head operands m (.lambda name params body) args m')
      (hl : args.length = params.length) (hv : (scopeOf params args m').env.Binds v) :
      Arises (depth + 1) (.list i (head :: operands)) m (scopeOf params args m') v
  | within {depth : Nat} {form f v : Value} {m m' t : Machine}
      (hf : Enters (evaluate depth) form m f m') (h : Arises depth f m' t v) :
      Arises (depth + 1) form m t v

/-- Time passes from one machine to another: while a form is evaluated, on the way to an evaluation
inside and from its end to the end of the outer one, on the way to a call, and while a scope is
opened and until it has been closed. -/
inductive Elapses : Machine → Machine → Prop where
  | refl (m : Machine) : Elapses m m
  | trans {m n p : Machine} (h : Elapses m n) (k : Elapses n p) : Elapses m p
  | runs (depth : Nat) (f : Value) (m : Machine) : Elapses m ((evaluate depth f).run m).2
  | enters {depth : Nat} {form f : Value} {m n : Machine} (h : Enters (evaluate depth) form m f n) :
      Elapses m n
  | leaves {depth : Nat} {form f : Value} {m n : Machine} (h : Enters (evaluate depth) form m f n) :
      Elapses ((evaluate depth f).run n).2 ((evaluate (depth + 1) form).run m).2
  | calls {depth : Nat} {head : Value} {operands args : List Value} {callee : Callee}
      {m n : Machine} (h : Calls (evaluate depth) head operands m callee args n) : Elapses m n
  | opens (params : List String) (args : List Value) (m : Machine) :
      Elapses m (scopeOf params args m)
  | closes {depth : Nat} {i : Identity} {head : Value} {operands args body : List Value}
      {name : String} {params : List String} {m n : Machine} (hs : Special.ofHead? head = none)
      (h : Calls (evaluate depth) head operands m (.lambda name params body) args n)
      (hl : args.length = params.length) :
      Elapses (scopeOf params args n) ((evaluate (depth + 1) (.list i (head :: operands))).run m).2

/-- What arises in an evaluation is there neither before its beginning nor after its end. -/
theorem Arises.elapses {depth : Nat} {f v : Value} {m t : Machine} (h : Arises depth f m t v) :
    Elapses m t ∧ Elapses t ((evaluate depth f).run m).2 := by
  induction h with
  | before => exact ⟨.refl _, .runs _ _ _⟩
  | after => exact ⟨.runs _ _ _, .refl _⟩
  | @given depth f v m t hv =>
    have ht := Elapses.runs depth f m
    rw [hv] at ht ⊢
    exact ⟨ht, .refl t⟩
  | opened hs hc hl => exact ⟨.trans (.calls hc) (.opens _ _ _), .closes hs hc hl⟩
  | within hf _ ih => exact ⟨.trans (.enters hf) ih.1, .trans ih.2 (.leaves hf)⟩

/-! ### Rows of forms -/

section Rows
variable {α β : Type} {ev : Value → Eval Value} {R : Machine → Machine → Prop} {m n : Machine}

theorem snd_run_bind {x : Eval α} {k : α → Eval β} (hk : ∀ a m, ((k a).run m).2 = m) (m : Machine) :
    ((x >>= k).run m).2 = (x.run m).2 := by
  rw [run_bind]
  generalize x.run m = r
  obtain ⟨r, m₁⟩ := r
  cases r with
  | error e => rfl
  | ok a => exact hk a m₁

private theorem snd_run_each_cons {f v : Value} (hf : (ev f).run m = (.ok v, n))
    (forms : List Value) : ((each ev (f :: forms)).run m).2 = ((each ev forms).run n).2 := by
  rw [each, run_bind, hf]
  exact snd_run_bind (fun _ _ => rfl) n

/-- An order of machines in which evaluations go forward. -/
structure Orders (ev : Value → Eval Value) (R : Machine → Machine → Prop) : Prop where
  refl (m : Machine) : R m m
  trans {m n p : Machine} : R m n → R n p → R m p
  runs (f : Value) (m : Machine) : R m ((ev f).run m).2

namespace Orders
variable (h : Orders ev R)
include h

theorem run_ok {f v : Value} (hf : (ev f).run m = (.ok v, n)) : R m n := by
  have hr := h.runs f m
  rwa [hf] at hr

theorem reaches {forms : List Value} {f : Value} (hf : Reaches ev forms m f n) : R m n := by
  induction hf with
  | here => exact h.refl _
  | later hg _ ih => exact h.trans (h.run_ok hg) ih

theorem each (forms : List Value) (m : Machine) : R m ((each ev forms).run m).2 := by
  induction forms generalizing m with
  | nil => exact h.refl m
  | cons form forms ih =>
    have hform := h.runs form m
    generalize hr : (ev form).run m = r at hform
    obtain ⟨r, m₁⟩ := r
    cases r with
    | error e =>
      rw [Eval.each, run_bind, hr]
      exact hform
    | ok v =>
      rw [snd_run_each_cons hr]
      exact h.trans hform (ih m₁)

/-- A row of forms ends no earlier than each of the forms that it comes to. -/
theorem reaches_each {forms : List Value} {f : Value} (hf : Reaches ev forms m f n) :
    R ((ev f).run n).2 ((Eval.each ev forms).run m).2 := by
  induction hf with
  | @here f forms m =>
    generalize hr : (ev f).run m = r
    obtain ⟨r, m₁⟩ := r
    cases r with
    | error e =>
      rw [Eval.each, run_bind, hr]
      exact h.refl m₁
    | ok v =>
      rw [snd_run_each_cons hr]
      exact h.each forms m₁
  | later hg _ ih =>
    rw [snd_run_each_cons hg]
    exact ih

end Orders

end Rows

theorem orders_elapses (depth : Nat) : Orders (evaluate depth) Elapses :=
  ⟨.refl, .trans, .runs depth⟩

/-! ### Identities are drawn in order -/

/-- A computation that does not take identities back. -/
def Advances {α : Type} (x : Eval α) : Prop :=
  ∀ m : Machine, m.fresh ≤ (x.run m).2.fresh

section Rules
variable {α β : Type} {x : Eval α} {k : α → Eval β}

private theorem le_bind (hk : ∀ a, Advances (k a)) (m : Machine) :
    (x.run m).2.fresh ≤ ((x >>= k).run m).2.fresh := by
  rw [run_bind]
  generalize x.run m = r
  obtain ⟨r, m₁⟩ := r
  cases r with
  | error e => exact Nat.le_refl _
  | ok a => exact hk a m₁

private theorem advances_bind (hx : Advances x) (hk : ∀ a, Advances (k a)) : Advances (x >>= k) :=
  fun m => Nat.le_trans (hx m) (le_bind hk m)

end Rules

variable {depth : Nat} {form f head : Value} {forms operands args : List Value} {callee : Callee}
  {m n : Machine}

theorem advances_evaluate (depth : Nat) (f : Value) : Advances (evaluate depth f) :=
  (renamesForms_evaluate Function.injective_id depth f).grows

private theorem orders_fresh (depth : Nat) :
    Orders (evaluate depth) fun m n => m.fresh ≤ n.fresh :=
  ⟨fun _ => Nat.le_refl _, Nat.le_trans, advances_evaluate depth⟩

private theorem advances_arguments (depth : Nat) (fn : Value) (operands : List Value) :
    Advances (arguments (evaluate depth) fn operands) := by
  unfold arguments
  split
  · exact fun _ => Nat.le_refl _
  · exact (orders_fresh depth).each operands

private theorem advances_applyWith (depth : Nat) (fn : Value) (args : List Value) :
    Advances (applyWith (evaluate depth) fn args) :=
  (renames_applyWith Function.injective_id (renamesForms_evaluate Function.injective_id depth)
    fn args).grows

private theorem snd_run_inOrder (ev : Value → Eval Value) (last : Value) (forms : List Value)
    (m : Machine) : ((inOrder ev last forms).run m).2 = ((each ev forms).run m).2 := by
  rw [inOrder_eq_each, snd_run_bind fun _ _ => rfl]

private theorem le_of_calls (h : Calls (evaluate depth) head operands m callee args n) :
    m.fresh ≤ n.fresh := by
  obtain ⟨fn, vs, m₁, hh, _, ha, _⟩ := h
  have hargs := advances_arguments depth fn operands m₁
  rw [ha] at hargs
  exact Nat.le_trans ((orders_fresh depth).run_ok hh) hargs

private theorem le_of_enters (h : Enters (evaluate depth) form m f n) : m.fresh ≤ n.fresh := by
  have ho := orders_fresh depth
  cases h with
  | value => exact Nat.le_refl _
  | condition => exact Nat.le_refl _
  | consequent _ hc => exact ho.run_ok hc
  | alternative _ hc => exact ho.run_ok hc
  | operator => exact Nat.le_refl _
  | operand _ hh _ _ h => exact Nat.le_trans (ho.run_ok hh) (ho.reaches h)
  | @body _ _ _ _ args _ _ params _ n₁ _ _ hc _ h =>
    have hbody : n₁.fresh ≤ n.fresh := ho.reaches (m := scopeOf params args n₁) h
    exact Nat.le_trans (le_of_calls hc) hbody
  | sequence _ hc h => exact Nat.le_trans (le_of_calls hc) (ho.reaches h)

private theorem le_step_of_enters (h : Enters (evaluate depth) form m f n) :
    ((evaluate depth f).run n).2.fresh ≤ ((step (evaluate depth) form).run m).2.fresh := by
  have ho := orders_fresh depth
  cases h with
  | value hs =>
    simp only [step, hs]
    exact le_bind (fun v _ => Nat.le_refl _) _
  | condition hs =>
    simp only [step, hs]
    refine le_bind (fun w => ?_) _
    split
    · exact advances_evaluate _ _
    · split
      · exact fun _ => Nat.le_refl _
      · exact advances_evaluate _ _
      · exact fun _ => Nat.le_refl _
    · exact fun _ => Nat.le_refl _
  | consequent hs hc =>
    simp only [step, hs, choiceForm, run_bind, hc]
    exact Nat.le_refl _
  | alternative hs hc =>
    simp only [step, hs, choiceForm, run_bind, hc]
    exact Nat.le_refl _
  | operator hs =>
    simp only [step, hs]
    refine le_bind (fun fn => ?_) _
    split
    · exact advances_bind (advances_arguments _ _ _) fun vs => advances_applyWith _ _ vs
    · exact advances_bind (fun m => by rw [run_ofHalt]) fun text _ => Nat.le_refl _
  | operand hs hh hp ht hr =>
    simp only [step, hs]
    rw [run_callForm hh hp ht]
    exact Nat.le_trans (ho.reaches_each hr) (le_bind (fun vs => advances_applyWith _ _ vs) _)
  | body hs hc hl hr =>
    simp only [step, hs, run_callForm_of_calls hc, call, hl, if_true, run_within, snd_run_inOrder]
    exact ho.reaches_each hr
  | sequence hs hc hr =>
    simp only [step, hs, run_callForm_of_calls hc]
    cases hr with
    | here =>
      simp only [call, snd_run_inOrder]
      exact ho.reaches_each .here
    | later hg hr =>
      simp only [call, snd_run_inOrder]
      exact ho.reaches_each (.later hg hr)

/-- No identity is taken back: as time passes the next one is the same or later. -/
theorem Elapses.fresh_le (h : Elapses m n) : m.fresh ≤ n.fresh := by
  induction h with
  | refl m => exact Nat.le_refl _
  | trans _ _ ihm ihn => exact Nat.le_trans ihm ihn
  | runs depth f m => exact advances_evaluate depth f m
  | enters h => exact le_of_enters h
  | leaves h => exact le_step_of_enters h
  | calls h => exact le_of_calls h
  | opens => exact Nat.le_refl _
  | closes hs h hl =>
    simp only [evaluate, step, hs, run_callForm_of_calls h, call, hl, if_true, run_within,
      snd_run_inOrder]
    exact (orders_fresh _).each _ _

end Eval

end DynamicLisp
