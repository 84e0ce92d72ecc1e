import Mathlib
import DynamicLisp.Proofs.Eval.Holding
import DynamicLisp.Proofs.Eval.Refusal
import DynamicLisp.Proofs.Value.Lined

/-! What faults say. Main statement: evaluation of forms whose names fit on one line halts, if it
does so for a fault, with a message that fits on one line. -/
namespace DynamicLisp
open Text

namespace Fault

/-- The names and the texts of values that the message of a fault shows. -/
def texts : Fault → List String
  | pairForm text | undefined text | operatorNotProcedure text | notApplicable text
  | parameterNotSymbol text | notPair text | nameNotSymbol text | arity text _
  | operandCount text _ | notOneOperand text => [text]
  | _ => []

/-- What the message shows of a program fits on one line. -/
def IsLined (f : Fault) : Prop :=
  ∀ t ∈ f.texts, IsLine t

/-- A message fits on one line if the names and texts do that it shows. -/
theorem IsLined.isLine_message {f : Fault} (h : f.IsLined) : IsLine f.message := by
  have hone : ∀ t, f.texts = [t] → IsLine t := fun t ht => h t (ht ▸ .head _)
  cases f with
  | pairForm t | undefined t | operatorNotProcedure t | notApplicable t | parameterNotSymbol t =>
    exact .append (by decide +kernel) (hone t rfl)
  | notPair t | notOneOperand t => exact (hone t rfl).append (by decide +kernel)
  | nameNotSymbol t =>
    exact (IsLine.append (by decide +kernel) (hone t rfl)).append (by decide +kernel)
  | arity t n =>
    exact (((hone t rfl).append (by decide +kernel)).append (isLine_toString n)).append
      (by decide +kernel)
  | operandCount t n =>
    exact ((IsLine.append (by decide +kernel) (hone t rfl)).append (by decide +kernel)).append
      (isLine_toString n)
  | overflow n => exact .append (by decide +kernel) (isLine_writeInt n)
  | _ => decide +kernel

theorem isLined_of_texts_eq_nil {f : Fault} (h : f.texts = []) : f.IsLined := by
  rw [IsLined, h]
  exact fun t ht => (List.not_mem_nil ht).elim

theorem OfCall.isLined {f : Fault} (h : f.OfCall) : f.IsLined := by
  have ho : ∀ op ∈ operations, IsLine op := by decide
  cases h with
  | notPair h | operandCount h | notOneOperand h => exact List.forall_mem_singleton.mpr (ho _ h)
  | _ => exact isLined_of_texts_eq_nil rfl

end Fault

/-- A fault is told on one line; whatever else ends a computation is not told as a fault. -/
def Halt.IsLined : Halt → Prop
  | .fault f => f.IsLined
  | _ => True

namespace Eval
open Value (IsLined isLined_of_ownTexts_eq_nil isLined_symbol isLined_list isLined_pair
  isLined_lambda)

/-! ### Computations -/

section Computations
variable {α β : Type} {Q : α → Prop} {R : β → Prop}

/-- How a run may end: with lined values bound, with a value as `Q` says, and with a fault only if
that is told on one line. -/
structure Lined (Q : α → Prop) (r : Except Halt α × Machine) : Prop where
  scope : r.2.env.Holds IsLined
  value : ∀ a, r.1 = .ok a → Q a
  halt : RefusedFor Halt.IsLined r.1

/-- A computation that ends so from wherever lined values are bound. -/
def Words (Q : α → Prop) (x : Eval α) : Prop :=
  ∀ m : Machine, m.env.Holds IsLined → Lined Q (x.run m)

theorem words_pure {a : α} (ha : Q a) : Words Q (pure a) := by
  intro m hm
  refine ⟨hm, fun b hb => ?_, .ok a⟩
  cases hb
  exact ha

theorem words_throw {e : Halt} (he : e.IsLined) : Words Q (throw e) :=
  fun _ hm => ⟨hm, fun _ ha => (nomatch ha), .error he⟩

theorem words_fail {f : Fault} (hf : f.IsLined) : Words Q (fail f) :=
  words_throw hf

/-- A fault that shows nothing of the program. -/
theorem words_fail_of_texts_eq_nil {f : Fault} (hf : f.texts = []) : Words Q (fail f) :=
  words_fail (Fault.isLined_of_texts_eq_nil hf)

theorem words_ofHalt {r : Except Halt α} (hr : ∀ a, r = .ok a → Q a)
    (he : RefusedFor Halt.IsLined r) : Words Q (ofHalt r) := by
  intro m hm
  rw [run_ofHalt]
  exact ⟨hm, hr, he⟩

theorem words_bind {x : Eval α} {f : α → Eval β} (hx : Words Q x)
    (hf : ∀ a, Q a → Words R (f a)) : Words R (x >>= f) := by
  intro m hm
  have hr := hx m hm
  rw [run_bind]
  generalize x.run m = r at hr ⊢
  obtain ⟨r, m₁⟩ := r
  cases r with
  | error e => exact ⟨hr.scope, fun b hb => (nomatch hb), .error (hr.halt e rfl)⟩
  | ok a => exact hf a (hr.value a rfl) m₁ hr.scope

theorem words_newIdentity : Words (fun _ => True) newIdentity :=
  fun _ hm => ⟨hm, fun _ _ => trivial, .ok _⟩

theorem words_report (e : Event) : Words (fun _ => True) (report e) :=
  fun _ hm => ⟨hm, fun _ _ => trivial, .ok _⟩

theorem words_lookup {name : String} (hn : IsLine name) : Words IsLined (lookup name) := by
  intro m hm
  rw [run_lookup]
  cases hl : m.env.lookup? name with
  | none =>
    refine ⟨hm, fun v hv => (nomatch hv), .error ?_⟩
    exact List.forall_mem_singleton.mpr hn
  | some w =>
    refine ⟨hm, fun v hv => ?_, .ok w⟩
    cases hv
    exact hm.of_lookup? hl

theorem words_define (name : String) {v : Value} (hv : v.IsLined) :
    Words (fun _ => True) (define name v) :=
  fun _ hm => ⟨hm.define hv, fun _ _ => trivial, .ok _⟩

theorem words_within {params : List String} {args : List Value} {body : Eval α}
    (hargs : ∀ a ∈ args, a.IsLined) (hb : Words Q body) :
    Words Q (within (.ofParameters params args) body) := by
  intro m hm
  have hr := hb { m with env := m.env.push (.ofParameters params args) } (hm.push hargs)
  rw [run_within]
  exact ⟨hr.scope.pop, hr.value, hr.halt⟩

theorem words_display {v : Value} (hv : v.IsLined) : Words IsLine (ofHalt v.display?) := by
  unfold Value.display?
  split
  · exact words_pure hv.isLine_display
  · exact words_throw trivial

end Computations

/-! ### Evaluation -/

section Forms
variable {ev : Value → Eval Value}

theorem isLined_nil : Value.nil.IsLined :=
  isLined_of_ownTexts_eq_nil rfl rfl

theorem words_each {forms : List Value} (h : ∀ f ∈ forms, Words IsLined (ev f)) :
    Words (fun vs => ∀ v ∈ vs, v.IsLined) (each ev forms) := by
  induction forms with
  | nil => exact words_pure fun v hv => (List.not_mem_nil hv).elim
  | cons form forms ih =>
    obtain ⟨hform, hforms⟩ := List.forall_mem_cons.mp h
    refine words_bind hform fun v hv => ?_
    exact words_bind (ih hforms) fun vs hvs => words_pure (List.forall_mem_cons.mpr ⟨hv, hvs⟩)

theorem words_inOrder {last : Value} {forms : List Value} (hl : last.IsLined)
    (h : ∀ f ∈ forms, Words IsLined (ev f)) : Words IsLined (inOrder ev last forms) := by
  induction forms generalizing last with
  | nil => exact words_pure hl
  | cons form forms ih =>
    obtain ⟨hform, hforms⟩ := List.forall_mem_cons.mp h
    exact words_bind hform fun v hv => ih hv hforms

/-! ### Calls -/

variable (hev : ∀ f : Value, f.IsLined → Words IsLined (ev f))
include hev

theorem words_call {callee : Callee} {args : List Value} (hargs : ∀ a ∈ args, a.IsLined)
    (hc : ∀ name params body, callee = .lambda name params body →
      IsLine name ∧ ∀ f ∈ body, f.IsLined) : Words IsLined (call ev callee args) := by
  cases callee with
  | lambda name params body =>
    obtain ⟨hname, hbody⟩ := hc name params body rfl
    simp only [call]
    split
    · exact words_within hargs (words_inOrder isLined_nil fun f hf => hev f (hbody f hf))
    · exact words_fail (List.forall_mem_singleton.mpr hname)
  | primitive p =>
    refine words_bind words_newIdentity fun fresh _ => words_ofHalt (fun v hv => ?_) fun e he => ?_
    · exact Primitive.forall_of_compute (fun _ => isLined_of_ownTexts_eq_nil rfl rfl)
        (fun _ _ => isLined_of_ownTexts_eq_nil rfl rfl) isLined_list isLined_pair hargs hv
    · cases e with
      | fault f => exact (Primitive.ofCall_of_compute he).isLined
      | _ => trivial
  | begin =>
    cases args with
    | nil => exact words_fail_of_texts_eq_nil rfl
    | cons form forms => exact words_inOrder isLined_nil fun f hf => hev f (hargs f hf)

private theorem words_applyWith {fn : Value} {args : List Value} (hp : fn.isProcedure)
    (hf : fn.IsLined) (hargs : ∀ a ∈ args, a.IsLined) :
    Words IsLined (applyWith ev fn args) := by
  have hr : Words (fun ca : Callee × List Value => (∀ name params body,
      ca.1 = .lambda name params body → IsLine name ∧ ∀ f ∈ body, f.IsLined) ∧
      ∀ a ∈ ca.2, a.IsLined) (ofHalt (Callee.resolve fn args)) := by
    refine words_ofHalt (fun ca hca => ?_) fun e he => ?_
    · obtain ⟨⟨g, hg, hc⟩, hvs, _⟩ := Callee.of_resolve (fun _ _ => isLined_list.mp) hf hargs hca
      refine ⟨fun name params body hl => ?_, hvs⟩
      rw [hl] at hc
      cases g with
      | lambda i name' params' body' =>
        cases hc
        exact isLined_lambda.mp hg
      | native f => cases f <;> cases hc
      | _ => cases hc
    · obtain ⟨f, rfl, hf⟩ := Callee.fault_of_resolve hp he
      exact hf.isLined
  exact words_bind hr fun ca hca => words_call hev hca.2 hca.1

private theorem words_callForm {head : Value} {operands : List Value} (hhead : head.IsLined)
    (hoperands : ∀ f ∈ operands, f.IsLined) : Words IsLined (callForm ev head operands) := by
  refine words_bind (hev head hhead) fun fn hfn => ?_
  split
  · next hp =>
    -- forms and values are lined in the same sense, so it does not matter which `fn` is given
    have hargs : Words (fun vs => ∀ v ∈ vs, v.IsLined) (arguments ev fn operands) := by
      unfold arguments
      split
      · exact words_pure hoperands
      · exact words_each fun f hf => hev f (hoperands f hf)
    exact words_bind hargs fun vs hvs => words_applyWith hev hp hfn hvs
  · refine words_bind (words_display hhead) fun text ht => ?_
    exact words_fail (List.forall_mem_singleton.mpr ht)

/-! ### Special forms -/

omit hev in
private theorem refused_parameterNames {params : List Value} (h : ∀ v ∈ params, v.IsLined) :
    RefusedFor Halt.IsLined (parameterNames params) := by
  induction params with
  | nil => exact .ok []
  | cons param params ih =>
    obtain ⟨hparam, hparams⟩ := List.forall_mem_cons.mp h
    have hother : RefusedFor Halt.IsLined (param.inspect?.bind fun text =>
        (throw (.fault (.parameterNotSymbol text)) : Except Halt (List String))) := by
      unfold Value.inspect?
      split
      · exact .error (List.forall_mem_singleton.mpr hparam.isLine_inspect)
      · exact .error trivial
    cases param with
    | symbol i x => exact .map (ih hparams)
    | _ => exact hother

private theorem words_defineForm {operands : List Value} (hoperands : ∀ f ∈ operands, f.IsLined) :
    Words IsLined (defineForm ev operands) := by
  fun_cases defineForm ev operands with
  | case1 => exact words_fail_of_texts_eq_nil rfl
  | case2 j x =>
    refine words_bind (words_report _) fun _ _ => ?_
    exact words_bind (words_define x isLined_nil) fun _ _ => words_pure isLined_nil
  | case3 j x form =>
    refine words_bind (hev form (hoperands _ (.tail _ (.head _)))) fun v hv => ?_
    refine words_bind (words_report _) fun _ _ => ?_
    exact words_bind (words_define x hv) fun _ _ => words_pure isLined_nil
  | case4 => exact words_fail_of_texts_eq_nil rfl
  | case5 j k x params body =>
    obtain ⟨hx, hparams⟩ := List.forall_mem_cons.mp (isLined_list.mp (hoperands _ (.head _)))
    have hnames : Words (fun _ => True) (ofHalt (parameterNames params)) :=
      words_ofHalt (fun _ _ => trivial) (refused_parameterNames hparams)
    refine words_bind hnames fun names _ => ?_
    refine words_bind (words_report _) fun _ _ => ?_
    refine words_bind words_newIdentity fun fresh _ => ?_
    have hl : (Value.lambda fresh x names body).IsLined :=
      isLined_lambda.mpr ⟨isLined_symbol.mp hx, fun f hf => hoperands f (.tail _ hf)⟩
    exact words_bind (words_define x hl) fun _ _ => words_pure isLined_nil
  | case6 => exact words_fail_of_texts_eq_nil rfl

private theorem words_choiceForm {operands : List Value} (hoperands : ∀ f ∈ operands, f.IsLined) :
    Words IsLined (choiceForm ev operands) := by
  have hitem : ∀ f ∈ operands, Words IsLined (ev f) := fun f hf => hev f (hoperands f hf)
  fun_cases choiceForm ev operands with
  | case1 condition consequent alternatives =>
    refine words_bind (hitem condition (.head _)) fun c _ => ?_
    split
    · exact hitem consequent (.tail _ (.head _))
    · split
      · exact words_pure isLined_nil
      · exact hitem _ (.tail _ (.tail _ (.head _)))
      · exact words_fail_of_texts_eq_nil rfl
    · exact words_fail_of_texts_eq_nil rfl
  | case2 => exact words_fail_of_texts_eq_nil rfl

/-- One step keeps to lined values and messages if the evaluation of other forms does. -/
theorem words_step {form : Value} (hform : form.IsLined) : Words IsLined (step ev form) := by
  fun_cases step ev form with
  | case1 i x => exact words_lookup (isLined_symbol.mp hform)
  | case2 => exact words_fail_of_texts_eq_nil rfl
  | case3 i head operands hs =>
    exact words_defineForm hev (List.forall_mem_cons.mp (isLined_list.mp hform)).2
  | case4 i head operands hs =>
    exact words_choiceForm hev (List.forall_mem_cons.mp (isLined_list.mp hform)).2
  | case5 i head operands hs =>
    obtain ⟨hhead, hoperands⟩ := List.forall_mem_cons.mp (isLined_list.mp hform)
    exact words_callForm hev hhead hoperands
  | case6 i a d =>
    refine words_bind (words_display hform) fun text ht => ?_
    exact words_fail (List.forall_mem_singleton.mpr ht)
  | case7 => exact words_pure hform

end Forms

/-- Evaluation of a lined form halts, if for a fault, with one that is told on one line. -/
theorem words_evaluate (depth : Nat) {form : Value} (hform : form.IsLined) :
    Words IsLined (evaluate depth form) := by
  induction depth generalizing form with
  | zero => exact words_throw trivial
  | succ depth ih => exact words_step (fun f hf => ih hf) hform

end Eval

end DynamicLisp
