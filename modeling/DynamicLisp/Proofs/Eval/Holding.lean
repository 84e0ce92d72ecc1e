import DynamicLisp.Proofs.Eval.Occurrence
import DynamicLisp.Proofs.Eval.Respect

/-! What environments hold. Where a discipline is kept, the permitted values stay the only ones
bound: at the end of an evaluation, however it ends, and at every moment that it comes to on the
way. -/
namespace DynamicLisp

namespace Environment
variable {P : Value → Prop} {e : Environment}

/-- All values bound in the frames of an environment satisfy `P`. -/
def Holds (e : Environment) (P : Value → Prop) : Prop :=
  ∀ f ∈ e.frames, ∀ b ∈ f.entries, P b.2

namespace Holds

theorem of_lookup? (h : e.Holds P) {x : String} {v : Value} (hv : e.lookup? x = some v) : P v := by
  obtain ⟨f, hf, hl⟩ := List.exists_of_findSome?_eq_some hv
  exact h f hf _ (Frame.mem_entries_of_lookup? hl)

theorem define (h : e.Holds P) {x : String} {v : Value} (hv : P v) : (e.define x v).Holds P := by
  obtain ⟨hinner, houter⟩ := List.forall_mem_cons.mp h
  refine List.forall_mem_cons.mpr ⟨fun b hb => ?_, houter⟩
  rcases Frame.mem_entries_define hb with hb | rfl
  · exact hinner b hb
  · exact hv

theorem push (h : e.Holds P) {params : List String} {args : List Value} (hargs : ∀ a ∈ args, P a) :
    (e.push (.ofParameters params args)).Holds P :=
  List.forall_mem_cons.mpr ⟨fun _ hb => hargs _ (Frame.mem_args_of_mem_ofParameters hb), h⟩

theorem pop (h : e.Holds P) : e.pop.Holds P := by
  obtain ⟨inner, outer⟩ := e
  cases outer with
  | nil => exact h
  | cons f fs => exact (List.forall_mem_cons.mp h).2

end Holds

end Environment

namespace Discipline
variable {D : Discipline}

/-- Environments that hold permitted values only; each is alike to itself. -/
def holding (D : Discipline) : D.Scoping where
  alike e e' := e = e' ∧ e.Holds D.data
  lookup := by
    rintro e _ x ⟨rfl, h⟩ _
    exact ⟨rfl, fun v hv => h.of_lookup? hv⟩
  define := by
    rintro e _ x v ⟨rfl, h⟩ _ hv
    exact ⟨rfl, h.define hv⟩
  push := by
    rintro e _ params args ⟨rfl, h⟩ _ hargs
    exact ⟨rfl, h.push hargs⟩

namespace Scoping
variable {α : Type} {p : String → Prop} {Q : α → Prop} {x : Eval α} {m m' : Machine}

/-- A single run: the environment grows and holds permitted values again, however the run ends. -/
theorem Respects.run (hx : D.holding.Respects p Q x) (h : m.env.Holds D.data) :
    (x.run m).2.env.Holds D.data ∧ m.env.Grows p (x.run m).2.env ∧
      ∀ a, (x.run m).1 = .ok a → Q a := by
  have hr := hx m m ⟨rfl, rfl, h⟩
  exact ⟨hr.alike.env.2, hr.left, hr.value⟩

theorem Respects.run_ok (hx : D.holding.Respects p Q x) (h : m.env.Holds D.data) {a : α}
    (hr : x.run m = (.ok a, m')) : Q a ∧ m'.env.Holds D.data := by
  have hk := hx.run h
  rw [hr] at hk
  exact ⟨hk.2.2 a rfl, hk.1⟩

/-! ### Moments within an evaluation -/

section Moments
open Eval
variable {ev : Value → Eval Value} {f : Value} {i : Identity} {head : Value} {operands : List Value}

theorem holds_of_reaches (hev : D.holding.Evaluates ev) {forms : List Value}
    (hf : ∀ g ∈ forms, D.form g) (hm : m.env.Holds D.data) (h : Reaches ev forms m f m') :
    D.form f ∧ m'.env.Holds D.data := by
  induction h with
  | here => exact ⟨hf _ (.head _), hm⟩
  | later hg _ ih =>
    have hm₁ := ((hev _ (hf _ (.head _))).run_ok hm hg).2
    exact ih (fun g h => hf g (.tail _ h)) hm₁

/-- A call is made with arguments that are forms; only `begin` may get forms that are no data. -/
theorem callable_of_calls (hev : D.holding.Evaluates ev) (hf : D.form (.list i (head :: operands)))
    (hm : m.env.Holds D.data) {callee : Callee} {args : List Value}
    (h : Calls ev head operands m callee args m') :
    D.Callable callee ∧ m'.env.Holds D.data ∧ (∀ a ∈ args, D.form a) ∧
      (callee ≠ .begin → ∀ a ∈ args, D.data a) := by
  obtain ⟨fn, vs, m₁, hh, _, ha, hc⟩ := h
  obtain ⟨hhead, hoperands⟩ := List.forall_mem_cons.mp (D.items hf)
  obtain ⟨hfn, hm₁⟩ := (hev head hhead).run_ok hm hh
  cases ht : fn.takesForms with
  | true =>
    obtain rfl := eq_begin_of_takesForms ht
    rw [arguments, ht] at ha
    cases ha
    rw [Callee.resolve_begin] at hc
    cases hc
    exact ⟨trivial, hm₁, hoperands, fun hb => (hb rfl).elim⟩
  | false =>
    rw [arguments, ht] at ha
    have he : D.holding.Respects (fun _ => True) (fun vs => ∀ v ∈ vs, D.data v)
        (each ev operands) :=
      respects_each fun g hg => (hev g (hoperands g hg)).mono fun _ _ => trivial
    obtain ⟨hvs, hm'⟩ := he.run_ok hm₁ ha
    obtain ⟨hcallee, hargs⟩ := D.callable_of_resolve hfn hvs hc
    exact ⟨hcallee, hm', fun a h => D.form_of_data (hargs a h), fun _ => hargs⟩

/-- The scope that a call opens holds permitted values, as the one does in which the call is made.
-/
theorem holds_scopeOf (hev : D.holding.Evaluates ev) (hf : D.form (.list i (head :: operands)))
    (hm : m.env.Holds D.data) {name : String} {params : List String} {args body : List Value}
    (h : Calls ev head operands m (.lambda name params body) args m') :
    (scopeOf params args m').env.Holds D.data := by
  obtain ⟨_, hm', _, hargs⟩ := callable_of_calls hev hf hm h
  exact hm'.push (hargs fun h => nomatch h)

/-- Whatever a step on a form comes to evaluate is a form, and permitted values are bound then. -/
theorem holds_of_enters (hev : D.holding.Evaluates ev) {form : Value} (hf : D.form form)
    (hm : m.env.Holds D.data) (h : Enters ev form m f m') : D.form f ∧ m'.env.Holds D.data := by
  cases h with
  | value => exact ⟨D.items hf _ (.tail _ (.tail _ (.head _))), hm⟩
  | condition => exact ⟨D.items hf _ (.tail _ (.head _)), hm⟩
  | consequent _ hc =>
    have hcond := D.items hf _ (.tail _ (.head _))
    exact ⟨D.items hf _ (.tail _ (.tail _ (.head _))), ((hev _ hcond).run_ok hm hc).2⟩
  | alternative _ hc =>
    have hcond := D.items hf _ (.tail _ (.head _))
    exact ⟨D.items hf _ (.tail _ (.tail _ (.tail _ (.head _)))), ((hev _ hcond).run_ok hm hc).2⟩
  | operator => exact ⟨D.items hf _ (.head _), hm⟩
  | operand _ hh _ _ h =>
    have hm₁ := ((hev _ (D.items hf _ (.head _))).run_ok hm hh).2
    exact holds_of_reaches hev (fun g hg => D.items hf g (.tail _ hg)) hm₁ h
  | body _ hc _ h =>
    have hbody := (callable_of_calls hev hf hm hc).1.2
    exact holds_of_reaches hev hbody (holds_scopeOf hev hf hm hc) h
  | sequence _ hc h =>
    obtain ⟨_, hm', hforms, _⟩ := callable_of_calls hev hf hm hc
    exact holds_of_reaches hev hforms hm' h

end Moments

end Scoping

end Discipline
end DynamicLisp
