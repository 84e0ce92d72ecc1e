import DynamicLisp.Proofs.Eval.Ledger
import DynamicLisp.Proofs.Eval.Time

/-! Evaluation with a ledger. Main statement: a ledger that fits the beginning of an evaluation is
continued to one that fits the end, however that comes about, and that has all values that arise on
the way. -/
namespace DynamicLisp

namespace Ledger
open Eval
variable {L M : Ledger} {m : Machine} {α β : Type}

/-- The entries of the ledger are up to date, and it has all values bound. -/
structure Fits (L : Ledger) (m : Machine) : Prop where
  next : L.next = m.fresh
  env : m.env.Holds L.Has

/-- After a run that ends as `r` says, the ledger is continued to one that fits the end. That one
has the values `seen`, each by the time at which it was, and the outcome is as `Q` says. -/
def Records (L : Ledger) (seen : Machine → Value → Prop) (Q : Ledger → α → Prop)
    (r : Except Halt α × Machine) : Prop :=
  ∃ M : Ledger, L.Extends M ∧ M.Fits r.2 ∧ (∀ t v, seen t v → M.HasAt t.fresh v) ∧
    ∀ a, r.1 = .ok a → Q M a

section Rules
variable {seen seen' : Machine → Value → Prop} {Q : Ledger → α → Prop} {R : Ledger → β → Prop}

theorem Fits.hasAt (hm : L.Fits m) {v : Value} (hv : L.Has v) : L.HasAt m.fresh v :=
  hm.next ▸ hv.hasAt

theorem Fits.define (hm : L.Fits m) {v : Value} (hv : L.Has v) (name : String)
    (events : List Event) : L.Fits ⟨m.env.define name v, m.fresh, events⟩ :=
  ⟨hm.next, hm.env.define hv⟩

theorem Fits.add (hm : L.Fits m) (v : Value) : (L.add v).Fits { m with fresh := m.fresh + 1 } :=
  ⟨congrArg (· + 1) hm.next, fun f hf b hb => (hm.env f hf b hb).mono (extends_add L v)⟩

theorem records_ok {a : α} (hm : L.Fits m) (ha : Q L a) (hseen : ∀ t v, ¬ seen t v) :
    L.Records seen Q (.ok a, m) :=
  ⟨L, .refl L, hm, fun t v h => (hseen t v h).elim, fun _ hb => Except.ok.inj hb ▸ ha⟩

theorem records_error {e : Halt} (hm : L.Fits m) (hseen : ∀ t v, ¬ seen t v) :
    L.Records seen Q (.error e, m) :=
  ⟨L, .refl L, hm, fun t v h => (hseen t v h).elim, fun _ hb => nomatch hb⟩

theorem Records.weaken {r : Except Halt α × Machine} (h : L.Records seen Q r)
    (hseen : ∀ t v, seen' t v → seen t v) : L.Records seen' Q r := by
  obtain ⟨M, hM, hm, hs, hq⟩ := h
  exact ⟨M, hM, hm, fun t v hv => hs t v (hseen t v hv), hq⟩

/-- What is seen in a computation followed by another is seen in the first, or in the second as it
starts where the first ends. -/
theorem Records.bind {x : Eval α} {f : α → Eval β} {s : α → Machine → Machine → Value → Prop}
    (hx : L.Records seen Q (x.run m))
    (hf : ∀ a m₁ M, x.run m = (.ok a, m₁) → L.Extends M → M.Fits m₁ → Q M a →
      M.Records (s a m₁) R ((f a).run m₁)) :
    L.Records (fun t v => seen t v ∨ ∃ a m₁, x.run m = (.ok a, m₁) ∧ s a m₁ t v) R
      ((x >>= f).run m) := by
  rw [run_bind]
  generalize x.run m = r at hx hf
  obtain ⟨r, m₁⟩ := r
  obtain ⟨M, hM, hm₁, hs, hq⟩ := hx
  cases r with
  | error e =>
    refine ⟨M, hM, hm₁, fun t v hv => ?_, fun b hb => nomatch hb⟩
    rcases hv with hv | ⟨a, m₂, ha, _⟩
    · exact hs t v hv
    · cases ha
  | ok a =>
    obtain ⟨N, hN, hm₂, hs', hr⟩ := hf a m₁ M rfl hM hm₁ (hq a rfl)
    refine ⟨N, hM.trans hN, hm₂, fun t v hv => ?_, hr⟩
    rcases hv with hv | ⟨b, m₂, hb, hv⟩
    · exact (hs t v hv).mono hN
    · cases hb
      exact hs' t v hv

/-- Closing the scope takes nothing out of the ledger. -/
theorem Records.closed {r : Except Halt α × Machine} (h : L.Records seen Q r) :
    L.Records seen Q (r.1, { r.2 with env := r.2.env.pop }) := by
  obtain ⟨M, hM, hm, hs, hq⟩ := h
  exact ⟨M, hM, ⟨hm.next, hm.env.pop⟩, hs, hq⟩

end Rules

/-! ### Rows and calls -/

section Steps
variable {A : Value → Machine → Machine → Value → Prop} {ev : Value → Eval Value}
  {forms args operands : List Value} {head fn : Value} {callee : Callee} {i : Identity}

/-- An evaluation of forms in which `A` tells what is seen. -/
def RecordsForms (A : Value → Machine → Machine → Value → Prop) (ev : Value → Eval Value) : Prop :=
  ∀ (L : Ledger) (f : Value) (m : Machine), L.Fits m → L.Form f →
    L.Records (A f m) Has ((ev f).run m)

/-- What is seen in the evaluation of several forms in order. -/
def RowSees (A : Value → Machine → Machine → Value → Prop) (ev : Value → Eval Value)
    (forms : List Value) (m t : Machine) (v : Value) : Prop :=
  ∃ f n, Reaches ev forms m f n ∧ A f n t v

/-- What is seen in a call. -/
inductive CallSees (A : Value → Machine → Machine → Value → Prop) (ev : Value → Eval Value) :
    Callee → List Value → Machine → Machine → Value → Prop where
  | scope {name : String} {params : List String} {args body : List Value} {m : Machine} {v : Value}
      (hl : args.length = params.length) (hv : (scopeOf params args m).env.Binds v) :
      CallSees A ev (.lambda name params body) args m (scopeOf params args m) v
  | body {name : String} {params : List String} {args body : List Value} {m t : Machine} {v : Value}
      (hl : args.length = params.length) (h : RowSees A ev body (scopeOf params args m) t v) :
      CallSees A ev (.lambda name params body) args m t v
  | sequence {forms : List Value} {m t : Machine} {v : Value} (h : RowSees A ev forms m t v) :
      CallSees A ev .begin forms m t v

theorem records_each (hev : RecordsForms A ev) (hm : L.Fits m) (hf : ∀ f ∈ forms, L.Form f) :
    L.Records (RowSees A ev forms m) (fun M vs => ∀ v ∈ vs, M.Has v) ((each ev forms).run m) := by
  induction forms generalizing L m with
  | nil =>
    refine records_ok hm (fun v hv => (List.not_mem_nil hv).elim) ?_
    rintro t v ⟨f, n, h, _⟩
    cases h
  | cons form forms ih =>
    obtain ⟨hform, hforms⟩ := List.forall_mem_cons.mp hf
    refine ((hev L form m hm hform).bind (s := fun _ m₁ => RowSees A ev forms m₁)
      fun v m₁ M _ hM hm₁ hv => ?_).weaken ?_
    · refine ((ih hm₁ fun f hf => (hforms f hf).mono hM).bind (s := fun _ _ _ _ => False)
        fun vs m₂ N _ hN hm₂ hvs => ?_).weaken fun _ _ => .inl
      exact records_ok hm₂ (List.forall_mem_cons.mpr ⟨hv.mono hN, hvs⟩) fun _ _ h => h
    · rintro t v ⟨f, n, h, ha⟩
      cases h with
      | here => exact .inl ha
      | later hg h => exact .inr ⟨_, _, hg, f, n, h, ha⟩

theorem records_inOrder (hev : RecordsForms A ev) (hm : L.Fits m) (hf : ∀ f ∈ forms, L.Form f) :
    L.Records (RowSees A ev forms m) Has ((inOrder ev .nil forms).run m) := by
  rw [inOrder_eq_each]
  refine ((records_each hev hm hf).bind (s := fun _ _ _ _ => False)
    fun vs m₁ M _ _ hm₁ hvs => ?_).weaken fun _ _ => .inl
  refine records_ok hm₁ ?_ fun _ _ h => h
  rcases List.mem_cons.mp List.getLastD_mem_cons with h | h
  · rw [h]
    exact has_of_identity?_eq_none rfl
  · exact hvs _ h

private theorem records_primitive (p : Primitive) (hm : L.Fits m) (hargs : ∀ a ∈ args, L.Has a) :
    L.Records (fun _ _ => False) Has ((call ev (.primitive p) args).run m) := by
  rw [run_call_primitive]
  cases hv : p.compute m.fresh args with
  | error e => exact ⟨L.add .nil, extends_add L _, hm.add _, fun _ _ h => h.elim, nofun⟩
  | ok v =>
    refine ⟨L.add v, extends_add L v, hm.add v, fun _ _ h => h.elim, fun w hw => ?_⟩
    cases hw
    rw [← hm.next] at hv
    exact has_of_compute hargs hv

/-- A call of a lambda whose forms come from a text, or of a native. Only `begin` is called with
forms that are no values. -/
theorem records_call (hev : RecordsForms A ev) (hm : L.Fits m)
    (hbody : ∀ name params body, callee = .lambda name params body → ∀ f ∈ body, f.IsSource)
    (hforms : ∀ a ∈ args, L.Form a) (hargs : callee ≠ .begin → ∀ a ∈ args, L.Has a) :
    L.Records (CallSees A ev callee args m) Has ((call ev callee args).run m) := by
  cases callee with
  | lambda name params body =>
    simp only [call]
    split
    · next hl =>
      have hscope : L.Fits (scopeOf params args m) :=
        ⟨hm.next, hm.env.push (hargs (by simp))⟩
      have hsource : ∀ f ∈ body, L.Form f := fun f hf => .inl (hbody name params body rfl f hf)
      have hrow := records_inOrder hev hscope hsource
      obtain ⟨M, hM, hm', hs, hq⟩ := hrow.closed
      rw [run_within]
      refine ⟨M, hM, hm', fun t v hv => ?_, hq⟩
      cases hv with
      | scope _ hv => exact (hscope.hasAt (hscope.env.of_binds hv)).mono hM
      | body _ h => exact hs t v h
    · next hl =>
      refine records_error hm fun t v hv => ?_
      cases hv with
      | scope h _ => exact hl h
      | body h _ => exact hl h
  | primitive p =>
    exact (records_primitive p hm (hargs (by simp))).weaken fun _ _ h => by cases h
  | begin =>
    cases args with
    | nil =>
      refine records_error hm fun t v hv => ?_
      cases hv with
      | sequence h =>
        obtain ⟨f, n, hr, _⟩ := h
        cases hr
    | cons form forms =>
      refine (records_inOrder hev hm hforms).weaken fun t v hv => ?_
      cases hv with
      | sequence h => exact h

/-- What is seen when a value is applied: it is seen in the call to which this comes. -/
def ApplySees (A : Value → Machine → Machine → Value → Prop) (ev : Value → Eval Value) (fn : Value)
    (args : List Value) (m t : Machine) (v : Value) : Prop :=
  ∃ callee vs, Callee.resolve fn args = .ok (callee, vs) ∧ CallSees A ev callee vs m t v

private theorem records_applyWith (hev : RecordsForms A ev) (hm : L.Fits m) (hfn : L.Has fn)
    (hforms : ∀ a ∈ args, L.Form a) (hargs : fn ≠ .native .begin → ∀ a ∈ args, L.Has a) :
    L.Records (ApplySees A ev fn args m) Has ((applyWith ev fn args).run m) := by
  simp only [applyWith, run_bind, run_ofHalt]
  cases hr : Callee.resolve fn args with
  | error e =>
    refine records_error hm ?_
    rintro t v ⟨callee, vs, h, _⟩
    cases hr.symm.trans h
  | ok ca =>
    obtain ⟨callee, vs⟩ := ca
    suffices h : L.Records (CallSees A ev callee vs m) Has ((call ev callee vs).run m) by
      refine h.weaken ?_
      rintro t v ⟨callee', vs', h, hv⟩
      cases hr.symm.trans h
      exact hv
    by_cases hb : fn = .native .begin
    · rw [hb, Callee.resolve_begin] at hr
      cases hr
      exact records_call hev hm (by simp) hforms fun h => (h rfl).elim
    · obtain ⟨⟨g, hg, hc⟩, hvs, _⟩ :=
        Callee.of_resolve (P := L.Has) (fun _ _ h => (has_list.mp h).2) hfn (hargs hb) hr
      refine records_call hev hm ?_ (fun a ha => .inr (hvs a ha)) fun _ => hvs
      rintro name params body rfl
      cases g with
      | lambda i name' params' body' =>
        cases hc
        exact hg.lists.body
      | native f => cases f <;> cases hc
      | _ => cases hc

/-! ### Forms -/

/-- What is seen in an operation on operands: in their evaluation, if they are evaluated, and when
the operator is applied. -/
def OperationSees (A : Value → Machine → Machine → Value → Prop) (ev : Value → Eval Value)
    (fn : Value) (operands : List Value) (m t : Machine) (v : Value) : Prop :=
  (fn.takesForms = false ∧ RowSees A ev operands m t v) ∨
    ∃ vs n, (arguments ev fn operands).run m = (.ok vs, n) ∧ ApplySees A ev fn vs n t v

/-- What is seen in a call form: in the evaluation of the operator and in its operation. -/
def CallFormSees (A : Value → Machine → Machine → Value → Prop) (ev : Value → Eval Value)
    (head : Value) (operands : List Value) (m t : Machine) (v : Value) : Prop :=
  A head m t v ∨ ∃ fn n, (ev head).run m = (.ok fn, n) ∧ fn.isProcedure ∧
    OperationSees A ev fn operands n t v

/-- What is seen in a definition: it evaluates the form whose value it binds, if any. -/
def DefineSees (A : Value → Machine → Machine → Value → Prop) (operands : List Value)
    (m t : Machine) (v : Value) : Prop :=
  ∃ j x f, operands = [.symbol j x, f] ∧ A f m t v

/-- What is seen in a choice: in the evaluation of the condition and of the branch chosen. -/
def ChoiceSees (A : Value → Machine → Machine → Value → Prop) (ev : Value → Eval Value)
    (operands : List Value) (m t : Machine) (v : Value) : Prop :=
  ∃ c f others, operands = c :: f :: others ∧ (A c m t v ∨ ∃ w n, (ev c).run m = (.ok w, n) ∧
    (w = .bool true ∧ A f n t v ∨ w = .bool false ∧ ∃ g, others = [g] ∧ A g n t v))

/-- What is seen in a step. -/
inductive StepSees (A : Value → Machine → Machine → Value → Prop) (ev : Value → Eval Value) :
    Value → Machine → Machine → Value → Prop where
  | entered {form f v : Value} {m n t : Machine} (hf : Enters ev form m f n) (h : A f n t v) :
      StepSees A ev form m t v
  | opened {i : Identity} {head v : Value} {operands args body : List Value} {name : String}
      {params : List String} {m m' : Machine} (hs : Special.ofHead? head = none)
      (hc : Calls ev head operands m (.lambda name params body) args m')
      (hl : args.length = params.length) (hv : (scopeOf params args m').env.Binds v) :
      StepSees A ev (.list i (head :: operands)) m (scopeOf params args m') v

private theorem callFormSees_of_calls {n t : Machine} {v : Value}
    (hc : Calls ev head operands m callee args n) (h : CallSees A ev callee args n t v) :
    CallFormSees A ev head operands m t v := by
  obtain ⟨fn, vs, m₁, hh, hp, hvs, hr⟩ := hc
  exact .inr ⟨fn, m₁, hh, hp, .inr ⟨vs, n, hvs, callee, args, hr, h⟩⟩

/-- What is seen in a step on a list that is not empty is seen by the rule for its head. -/
private theorem sees_of_stepSees {t : Machine} {v : Value}
    (h : StepSees A ev (.list i (head :: operands)) m t v) :
    match Special.ofHead? head with
    | some .define => DefineSees A operands m t v
    | some .choice => ChoiceSees A ev operands m t v
    | none => CallFormSees A ev head operands m t v := by
  cases h with
  | entered he ha =>
    cases he with
    | value hs =>
      rw [hs]
      exact ⟨_, _, _, rfl, ha⟩
    | condition hs =>
      rw [hs]
      exact ⟨_, _, _, rfl, .inl ha⟩
    | consequent hs hc =>
      rw [hs]
      exact ⟨_, _, _, rfl, .inr ⟨_, _, hc, .inl ⟨rfl, ha⟩⟩⟩
    | alternative hs hc =>
      rw [hs]
      exact ⟨_, _, _, rfl, .inr ⟨_, _, hc, .inr ⟨rfl, _, rfl, ha⟩⟩⟩
    | operator hs =>
      rw [hs]
      exact .inl ha
    | operand hs hh hp ht h =>
      rw [hs]
      exact .inr ⟨_, _, hh, hp, .inl ⟨ht, _, _, h, ha⟩⟩
    | body hs hc hl h =>
      rw [hs]
      exact callFormSees_of_calls hc (.body hl ⟨_, _, h, ha⟩)
    | sequence hs hc h =>
      rw [hs]
      exact callFormSees_of_calls hc (.sequence ⟨_, _, h, ha⟩)
  | opened hs hc hl hv =>
    rw [hs]
    exact callFormSees_of_calls hc (.scope hl hv)

private theorem records_operation (hev : RecordsForms A ev) (hm : L.Fits m) (hfn : L.Has fn)
    (hf : ∀ f ∈ operands, L.Form f) :
    L.Records (OperationSees A ev fn operands m) Has
      ((arguments ev fn operands >>= applyWith ev fn).run m) := by
  have hargs : L.Records (fun t v => fn.takesForms = false ∧ RowSees A ev operands m t v)
      (fun M vs => (∀ a ∈ vs, M.Form a) ∧ (fn ≠ .native .begin → ∀ a ∈ vs, M.Has a))
      ((arguments ev fn operands).run m) := by
    unfold arguments
    cases ht : fn.takesForms with
    | true =>
      refine records_ok hm ⟨hf, fun hb => ?_⟩ fun t v h => nomatch h.1
      exact (hb (Discipline.Scoping.eq_begin_of_takesForms ht)).elim
    | false =>
      obtain ⟨M, hM, hm', hs, hq⟩ := records_each hev hm hf
      exact ⟨M, hM, hm', fun t v hv => hs t v hv.2,
        fun vs hvs => ⟨fun a ha => .inr (hq vs hvs a ha), fun _ => hq vs hvs⟩⟩
  exact hargs.bind fun vs m₁ M _ hM hm₁ hq =>
    records_applyWith hev hm₁ (hfn.mono hM) hq.1 hq.2

private theorem records_callForm (hev : RecordsForms A ev) (hm : L.Fits m)
    (hf : ∀ f ∈ head :: operands, L.Form f) :
    L.Records (CallFormSees A ev head operands m) Has ((callForm ev head operands).run m) := by
  obtain ⟨hhead, hoperands⟩ := List.forall_mem_cons.mp hf
  refine (hev L head m hm hhead).bind fun fn n M _ hM hn hfn => ?_
  split
  · exact (records_operation hev hn hfn fun f h => (hoperands f h).mono hM).weaken
      fun _ _ => And.right
  · next hp =>
    cases head.display? with
    | error e => exact records_error hn fun _ _ h => hp h.1
    | ok text => exact records_error hn fun _ _ h => hp h.1

private theorem records_function (hm : L.Fits m) {x : String} {names : List String}
    {body : List Value} {events : List Event} {seen : Machine → Value → Prop}
    (hb : ∀ f ∈ body, f.IsSource) (hseen : ∀ t v, ¬ seen t v) :
    L.Records seen Has (.ok .nil,
      ⟨m.env.define x (.lambda m.fresh x names body), m.fresh + 1, events⟩) := by
  have hi : (Value.lambda m.fresh x names body).identity? = some L.next :=
    congrArg some hm.next.symm
  refine ⟨L.add (.lambda m.fresh x names body), extends_add L _, (hm.add _).define ?_ x events,
    fun t v h => (hseen t v h).elim, fun w hw => ?_⟩
  · exact List.forall_mem_singleton.mpr (lists_add rfl hi hb)
  · cases hw
    exact has_of_identity?_eq_none rfl

private theorem not_defineSees (hne : ∀ j x f, operands ≠ [.symbol j x, f]) (t : Machine)
    (v : Value) : ¬ DefineSees A operands m t v :=
  fun ⟨j, x, f, h, _⟩ => hne j x f h

private theorem records_defineForm (hev : RecordsForms A ev) (hm : L.Fits m)
    (hf : ∀ f ∈ operands, f.IsSource) :
    L.Records (DefineSees A operands m) Has ((defineForm ev operands).run m) := by
  have hnil (M : Ledger) : M.Has .nil := has_of_identity?_eq_none rfl
  cases operands with
  | nil => exact records_error hm (not_defineSees (by simp))
  | cons target body =>
    cases target with
    | symbol j x =>
      rcases body with _ | ⟨f, _ | ⟨g, rest⟩⟩
      · exact records_ok (hm.define (hnil L) x _) (hnil L) (not_defineSees (by simp))
      · refine ((hev L f m hm (.inl (hf f (.tail _ (.head _))))).bind (s := fun _ _ _ _ => False)
          fun v n M _ _ hn hv => ?_).weaken ?_
        · exact records_ok (hn.define hv x _) (hnil M) fun _ _ h => h
        · rintro t v ⟨_, _, _, h, ha⟩
          cases h
          exact .inl ha
      · exact records_error hm (not_defineSees (by simp))
    | list j items =>
      have hno := @not_defineSees m A (.list j items :: body) (by simp)
      cases items with
      | nil => exact records_error hm hno
      | cons param params =>
        cases param with
        | symbol k x =>
          simp only [defineForm, run_bind, run_ofHalt]
          cases parameterNames params with
          | error e => exact records_error hm hno
          | ok names => exact records_function hm (fun f h => hf f (.tail _ h)) hno
        | _ => exact records_error hm hno
    | _ => exact records_error hm (not_defineSees (by simp))

private theorem records_choiceForm (hev : RecordsForms A ev) (hm : L.Fits m)
    (hf : ∀ f ∈ operands, L.Form f) :
    L.Records (ChoiceSees A ev operands m) Has ((choiceForm ev operands).run m) := by
  rcases operands with _ | ⟨c, _ | ⟨f, others⟩⟩
  · exact records_error hm fun t v h => nomatch h
  · exact records_error hm fun t v h => nomatch h
  · refine ((hev L c m hm (hf c (.head _))).bind (s := fun w n t v =>
        w = .bool true ∧ A f n t v ∨ w = .bool false ∧ ∃ g, others = [g] ∧ A g n t v)
      fun w n M _ hM hn _ => ?_).weaken ?_
    · split
      · refine (hev M f n hn ((hf f (.tail _ (.head _))).mono hM)).weaken ?_
        rintro t v (⟨_, ha⟩ | ⟨h, _⟩)
        · exact ha
        · cases h
      · split
        · refine records_ok hn (has_of_identity?_eq_none rfl) ?_
          rintro t v (⟨h, _⟩ | ⟨_, g, h, _⟩) <;> cases h
        · next g =>
          refine (hev M g n hn ((hf g (.tail _ (.tail _ (.head _)))).mono hM)).weaken ?_
          rintro t v (⟨h, _⟩ | ⟨_, _, h, ha⟩)
          · cases h
          · cases h
            exact ha
        · next hone =>
          refine records_error hn ?_
          rintro t v (⟨h, _⟩ | ⟨_, g, h, _⟩)
          · cases h
          · exact hone g h
      · next htrue hfalse =>
        refine records_error hn ?_
        rintro t v (⟨h, _⟩ | ⟨h, _⟩)
        · exact htrue h
        · exact hfalse h
    · rintro t v ⟨_, _, _, h, ha⟩
      cases h
      exact ha

/-- One step records what is seen in it if evaluations do. -/
theorem recordsForms_step (hev : RecordsForms A ev) : RecordsForms (StepSees A ev) (step ev) := by
  intro L form m hm hf
  have hatom {f : Value} (hne : ∀ i head operands, f ≠ .list i (head :: operands)) (t : Machine)
      (v : Value) : ¬ StepSees A ev f m t v := by
    intro h
    cases h with
    | opened => exact hne _ _ _ rfl
    | entered he _ => cases he <;> exact hne _ _ _ rfl
  fun_cases step ev form with
  | case1 i x =>
    rw [run_lookup]
    cases hl : m.env.lookup? x with
    | none => exact records_error hm (hatom (by simp))
    | some v => exact records_ok hm (hm.env.of_lookup? hl) (hatom (by simp))
  | case2 i => exact records_error hm (hatom (by simp))
  | case3 i head operands hs =>
    refine (records_defineForm hev hm (hf.isSource_of_ofHead? hs)).weaken fun t v h => ?_
    have hsees := sees_of_stepSees h
    rwa [hs] at hsees
  | case4 i head operands hs =>
    refine (records_choiceForm hev hm fun f h => hf.items f (.tail _ h)).weaken fun t v h => ?_
    have hsees := sees_of_stepSees h
    rwa [hs] at hsees
  | case5 i head operands hs =>
    refine (records_callForm hev hm hf.items).weaken fun t v h => ?_
    have hsees := sees_of_stepSees h
    rwa [hs] at hsees
  | case6 i a d =>
    have hno := hatom (f := .pair i a d) (by simp)
    cases (Value.pair i a d).display? with
    | error e => exact records_error hm hno
    | ok text => exact records_error hm hno
  | case7 =>
    refine records_ok hm (hf.has ?_) (hatom ?_)
    · cases form with
      | list i items => cases items <;> simp_all
      | _ => simp_all [Value.isSelfEvaluating]
    · rintro i head operands rfl
      simp_all

end Steps

private theorem records_arises {depth : Nat} {f : Value} {seen : Machine → Value → Prop}
    (hm : L.Fits m) (h : L.Records seen Has ((evaluate depth f).run m))
    (hseen : ∀ d, depth = d + 1 →
      ∀ t v, StepSees (Arises d) (evaluate d) f m t v → seen t v) :
    L.Records (Arises depth f m) Has ((evaluate depth f).run m) := by
  obtain ⟨M, hM, hm', hs, hq⟩ := h
  refine ⟨M, hM, hm', fun t v hv => ?_, hq⟩
  cases hv with
  | before hv => exact (hm.hasAt (hm.env.of_binds hv)).mono hM
  | after hv => exact hm'.hasAt (hm'.env.of_binds hv)
  | given hv =>
    rw [hv] at hm' hq
    exact hm'.hasAt (hq v rfl)
  | opened ho hc hl hv => exact hs _ _ (hseen _ rfl _ _ (.opened ho hc hl hv))
  | within hf h => exact hs _ _ (hseen _ rfl _ _ (.entered hf h))

/-- An evaluation continues every ledger that fits the beginning, for a form of a text or a value in
the ledger, to one that fits the end and has all values that arise. -/
theorem recordsForms_evaluate (depth : Nat) : RecordsForms (Arises depth) (evaluate depth) := by
  induction depth with
  | zero =>
    intro L f m hm hf
    have hnone : L.Records (fun _ _ => False) Has ((evaluate 0 f).run m) :=
      records_error hm fun _ _ h => h
    exact records_arises hm hnone fun d hd => nomatch hd
  | succ depth ih =>
    intro L f m hm hf
    refine records_arises hm (recordsForms_step ih L f m hm hf) fun d hd t v h => ?_
    cases hd
    exact h

end Ledger

end DynamicLisp
