import DynamicLisp.Proofs.Eval.Occurrence
import DynamicLisp.Proofs.Eval.Refusal

/-! Where evaluation halts. Main statements: a step ends without a value by a fault of its own,
where an evaluation that it enters does so, or where a primitive refuses the operands with which it
is called; and each of these evaluations and refusals ends the step as it ended itself. -/
namespace DynamicLisp.Eval

/-- The computation ends without a value, because of `e`. -/
abbrev Halts {α : Type} (x : Eval α) (m : Machine) (e : Halt) : Prop :=
  (x.run m).1 = .error e

section Rows
variable {α β : Type} {ev : Value → Eval Value} {m : Machine} {e : Halt}

theorem halts_bind {x : Eval α} {f : α → Eval β} : Halts (x >>= f) m e ↔
    Halts x m e ∨ ∃ a m', x.run m = (.ok a, m') ∧ Halts (f a) m' e := by
  unfold Halts
  rw [run_bind]
  generalize x.run m = r
  obtain ⟨r, m'⟩ := r
  cases r with
  | error e' =>
    constructor
    · intro h
      cases h
      exact .inl rfl
    · rintro (h | ⟨a, m₁, ha, _⟩)
      · cases h
        rfl
      · cases ha
  | ok a =>
    constructor
    · exact fun h => .inr ⟨a, m', rfl, h⟩
    · rintro (h | ⟨b, m₁, hb, h⟩)
      · cases h
      · cases hb
        exact h

theorem halts_ofHalt {r : Except Halt α} : Halts (ofHalt r) m e ↔ r = .error e := by
  rw [Halts, run_ofHalt]

theorem halts_each {forms : List Value} : Halts (each ev forms) m e ↔
    ∃ f m', Reaches ev forms m f m' ∧ Halts (ev f) m' e := by
  induction forms generalizing m with
  | nil =>
    constructor
    · intro h
      cases h
    · rintro ⟨f, m', hr, _⟩
      cases hr
  | cons form forms ih =>
    rw [each, halts_bind]
    constructor
    · rintro (h | ⟨v, m₁, hv, h⟩)
      · exact ⟨form, m, .here, h⟩
      · rcases halts_bind.mp h with h | ⟨vs, m₂, _, h⟩
        · obtain ⟨f, m', hr, hf⟩ := ih.mp h
          exact ⟨f, m', .later hv hr, hf⟩
        · cases h
    · rintro ⟨f, m', hr, hf⟩
      cases hr with
      | here => exact .inl hf
      | later hg hr => exact .inr ⟨_, _, hg, halts_bind.mpr (.inl (ih.mpr ⟨f, m', hr, hf⟩))⟩

theorem halts_inOrder {last : Value} {forms : List Value} : Halts (inOrder ev last forms) m e ↔
    ∃ f m', Reaches ev forms m f m' ∧ Halts (ev f) m' e := by
  induction forms generalizing last m with
  | nil =>
    constructor
    · intro h
      cases h
    · rintro ⟨f, m', hr, _⟩
      cases hr
  | cons form forms ih =>
    rw [inOrder, halts_bind]
    constructor
    · rintro (h | ⟨v, m₁, hv, h⟩)
      · exact ⟨form, m, .here, h⟩
      · obtain ⟨f, m', hr, hf⟩ := ih.mp h
        exact ⟨f, m', .later hv hr, hf⟩
    · rintro ⟨f, m', hr, hf⟩
      cases hr with
      | here => exact .inl hf
      | later hg hr => exact .inr ⟨_, _, hg, ih.mpr ⟨f, m', hr, hf⟩⟩

end Rows

/-- What can make a step on a form, from some machine, end without a value. -/
inductive Origin (ev : Value → Eval Value) : Value → Machine → Halt → Prop where
  | fault {form : Value} {m : Machine} {f : Fault} (hf : f.isDynamic) : Origin ev form m (.fault f)
  | inner {form f : Value} {m m' : Machine} {e : Halt} (hf : Enters ev form m f m')
      (h : Halts (ev f) m' e) : Origin ev form m e
  | primitive {i : Identity} {head : Value} {operands args : List Value} {m m' : Machine}
      {p : Primitive} {e : Halt} (hs : Special.ofHead? head = none)
      (hc : Calls ev head operands m (.primitive p) args m')
      (h : p.compute m'.fresh args = .error e) : Origin ev (.list i (head :: operands)) m e

variable {ev : Value → Eval Value} {m m' : Machine} {e : Halt} {i : Identity} {head : Value}
  {operands args : List Value} {callee : Callee}

/-! ### Every halt has an origin -/

private theorem fault_of_parameterNames {params : List Value}
    (hv : e = .longNumber → ∀ v ∈ params, v.isShowable) (h : parameterNames params = .error e) :
    ∃ f : Fault, e = .fault f ∧ f.isDynamic := by
  induction params with
  | nil => cases h
  | cons param params ih =>
    cases param with
    | symbol i x =>
      cases hn : parameterNames params with
      | error e' =>
        rw [parameterNames, hn] at h
        cases h
        exact ih (fun he => (List.forall_mem_cons.mp (hv he)).2) hn
      | ok names =>
        rw [parameterNames, hn] at h
        cases h
    | _ =>
      unfold parameterNames Value.inspect? at h
      split at h
      · cases h
        exact ⟨_, rfl, rfl⟩
      · next hs =>
        cases h
        exact (hs (hv rfl _ (.head _))).elim

/-- What is displayed for a fault and cannot be shown ends as a number too long to be written. -/
private theorem fault_of_display {v : Value} {f : String → Fault} {α : Type}
    (hv : e = .longNumber → v.isShowable)
    (h : Halts (do fail (f (← ofHalt v.display?)) : Eval α) m e) : e = .fault (f v.display) := by
  unfold Value.display? at h
  split at h
  · cases h
    rfl
  · next hs =>
    cases h
    exact (hs (hv rfl)).elim

private theorem origin_of_defineForm (hs : Special.ofHead? head = some .define)
    (hv : e = .longNumber → ∀ v ∈ operands, v.isShowable)
    (h : Halts (defineForm ev operands) m e) :
    Origin ev (.list i (head :: operands)) m e := by
  cases operands with
  | nil =>
    cases h
    exact .fault rfl
  | cons target body =>
    cases target with
    | symbol j x =>
      rcases body with _ | ⟨f, _ | ⟨g, forms⟩⟩
      · cases h
      · rcases halts_bind.mp h with h | ⟨v, m₁, _, h⟩
        · exact .inner (.value hs) h
        · cases h
      · cases h
        exact .fault rfl
    | list j items =>
      cases items with
      | nil =>
        cases h
        exact .fault rfl
      | cons param params =>
        cases param with
        | symbol k x =>
          rcases halts_bind.mp h with h | ⟨names, m₁, _, h⟩
          · have hp : e = .longNumber → ∀ v ∈ params, v.isShowable := fun he =>
              (List.forall_mem_cons.mp (Value.isShowable_list.mp (hv he _ (.head _)))).2
            obtain ⟨f, rfl, hf⟩ := fault_of_parameterNames hp (halts_ofHalt.mp h)
            exact .fault hf
          · cases h
        | _ =>
          cases h
          exact .fault rfl
    | _ =>
      cases h
      exact .fault rfl

private theorem origin_of_choiceForm (hs : Special.ofHead? head = some .choice)
    (h : Halts (choiceForm ev operands) m e) : Origin ev (.list i (head :: operands)) m e := by
  rcases operands with _ | ⟨c, _ | ⟨f, alternatives⟩⟩
  · cases h
    exact .fault rfl
  · cases h
    exact .fault rfl
  · rcases halts_bind.mp h with h | ⟨v, m₁, hc, h⟩
    · exact .inner (.condition hs) h
    · cases v with
      | bool b =>
        cases b with
        | true => exact .inner (.consequent hs hc) h
        | false =>
          rcases alternatives with _ | ⟨g, _ | ⟨k, rest⟩⟩
          · cases h
          · exact .inner (.alternative hs hc) h
          · cases h
            exact .fault rfl
      | _ =>
        cases h
        exact .fault rfl

private theorem origin_of_call (hs : Special.ofHead? head = none)
    (hc : Calls ev head operands m callee args m') (h : Halts (call ev callee args) m' e) :
    Origin ev (.list i (head :: operands)) m e := by
  cases callee with
  | lambda name params body =>
    simp only [call] at h
    split at h
    · next hl =>
      obtain ⟨f, m₁, hr, hf⟩ := halts_inOrder.mp h
      exact .inner (.body hs hc hl hr) hf
    · cases h
      exact .fault rfl
  | primitive p =>
    rcases halts_bind.mp h with h | ⟨a, m₁, ha, h⟩
    · cases h
    · rw [run_newIdentity] at ha
      cases ha
      exact .primitive hs hc (halts_ofHalt.mp h)
  | begin =>
    cases args with
    | nil =>
      cases h
      exact .fault rfl
    | cons form forms =>
      obtain ⟨f, m₁, hr, hf⟩ := halts_inOrder.mp h
      exact .inner (.sequence hs hc hr) hf

private theorem origin_of_callForm (hs : Special.ofHead? head = none)
    (hv : e = .longNumber → head.isShowable)
    (h : Halts (callForm ev head operands) m e) : Origin ev (.list i (head :: operands)) m e := by
  rcases halts_bind.mp h with h | ⟨fn, m₁, hh, h⟩
  · exact .inner (.operator hs) h
  · split at h
    · next hp =>
      rcases halts_bind.mp h with h | ⟨vs, m₂, ha, h⟩
      · unfold arguments at h
        cases ht : fn.takesForms with
        | true =>
          rw [ht] at h
          cases h
        | false =>
          rw [ht] at h
          obtain ⟨f, m', hr, hf⟩ := halts_each.mp h
          exact .inner (.operand hs hh hp ht hr) hf
      · rcases halts_bind.mp h with h | ⟨⟨callee, args⟩, m₃, hr, h⟩
        · obtain ⟨f, rfl, hf⟩ := Callee.fault_of_resolve hp (halts_ofHalt.mp h)
          exact .fault hf.isDynamic
        · rw [run_ofHalt] at hr
          have hc : Callee.resolve fn vs = .ok (callee, args) := congrArg Prod.fst hr
          obtain rfl : m₂ = m₃ := congrArg Prod.snd hr
          exact origin_of_call hs ⟨fn, vs, m₁, hh, hp, ha, hc⟩ h
    · obtain rfl := fault_of_display hv h
      exact .fault rfl

/-- A step halts for one of the reasons listed, unless it is on a form that cannot be shown. -/
theorem origin_of_step {form : Value} (hv : e = .longNumber → form.isShowable)
    (h : Halts (step ev form) m e) : Origin ev form m e := by
  cases form with
  | symbol j x =>
    cases hl : m.env.lookup? x with
    | none =>
      rw [step, Halts, run_lookup, hl] at h
      cases h
      exact .fault rfl
    | some v =>
      rw [step, Halts, run_lookup, hl] at h
      cases h
  | pair j a d =>
    obtain rfl := fault_of_display hv h
    exact .fault rfl
  | list j items =>
    cases items with
    | nil =>
      cases h
      exact .fault rfl
    | cons head operands =>
      have hitems : e = .longNumber → head.isShowable ∧ ∀ v ∈ operands, v.isShowable := fun he =>
        List.forall_mem_cons.mp (Value.isShowable_list.mp (hv he))
      simp only [step] at h
      split at h
      · next hs => exact origin_of_defineForm hs (fun he => (hitems he).2) h
      · next hs => exact origin_of_choiceForm hs h
      · next hs => exact origin_of_callForm hs (fun he => (hitems he).1) h
  | _ => cases h

/-- A step exhausts the bound on nesting only where an evaluation that it enters does. -/
theorem enters_of_nesting {form : Value} (h : Halts (step ev form) m .nesting) :
    ∃ f m', Enters ev form m f m' ∧ Halts (ev f) m' .nesting := by
  have hv : Halt.nesting = .longNumber → form.isShowable := nofun
  cases origin_of_step hv h with
  | inner hf he => exact ⟨_, _, hf, he⟩
  | primitive hs hc he =>
    cases Primitive.failing_of_compute he with
    | result hn hi => rcases Primitive.integer_eq_error hi with hi | ⟨hi, _⟩ <;> cases hi

/-! ### What halts inside ends the step -/

/-- A form comes to its call in the machine in which the arguments have been prepared. -/
theorem run_callForm_of_calls (hc : Calls ev head operands m callee args m') :
    (callForm ev head operands).run m = (call ev callee args).run m' := by
  obtain ⟨fn, vs, m₁, hh, hp, ha, hr⟩ := hc
  simp only [callForm, run_bind, hh, hp, if_true, ha, applyWith, run_ofHalt, hr]

/-- A step ends as each evaluation does that it enters and that halts. -/
theorem halts_step_of_enters {form f : Value} (hf : Enters ev form m f m')
    (h : Halts (ev f) m' e) : Halts (step ev form) m e := by
  cases hf with
  | value hs =>
    simp only [step, hs]
    exact halts_bind.mpr (.inl h)
  | condition hs =>
    simp only [step, hs]
    exact halts_bind.mpr (.inl h)
  | consequent hs hc =>
    simp only [step, hs]
    exact halts_bind.mpr (.inr ⟨_, _, hc, h⟩)
  | alternative hs hc =>
    simp only [step, hs]
    exact halts_bind.mpr (.inr ⟨_, _, hc, h⟩)
  | operator hs =>
    simp only [step, hs]
    exact halts_bind.mpr (.inl h)
  | operand hs hh hp ht hr =>
    simp only [step, hs]
    refine halts_bind.mpr (.inr ⟨_, _, hh, ?_⟩)
    rw [if_pos hp, arguments, ht]
    exact halts_bind.mpr (.inl (halts_each.mpr ⟨f, m', hr, h⟩))
  | body hs hc hl hr =>
    simp only [step, hs, Halts, run_callForm_of_calls hc, call, hl, if_true, run_within]
    exact halts_inOrder.mpr ⟨f, m', hr, h⟩
  | sequence hs hc hr =>
    simp only [step, hs, Halts, run_callForm_of_calls hc]
    cases hr with
    | here => exact halts_inOrder.mpr ⟨f, m', .here, h⟩
    | later hg hr => exact halts_inOrder.mpr ⟨f, m', .later hg hr, h⟩

/-- A step ends as each primitive does that it calls and that refuses its operands. -/
theorem halts_step_of_primitive {p : Primitive} (hs : Special.ofHead? head = none)
    (hc : Calls ev head operands m (.primitive p) args m')
    (h : p.compute m'.fresh args = .error e) :
    Halts (step ev (.list i (head :: operands))) m e := by
  simp only [step, hs, Halts, run_callForm_of_calls hc, call, run_bind, run_newIdentity,
    run_ofHalt, h]

/-! ### Totals too long to be written -/

/-- The evaluation of a form comes to a sum or a product that is too long to be written, by itself
or through an evaluation that it enters. -/
inductive Overruns : Nat → Value → Machine → Prop where
  | total {depth : Nat} {i : Identity} {head : Value} {operands args : List Value} {m m' : Machine}
      {p : Primitive} {n : Int} (hs : Special.ofHead? head = none)
      (hc : Calls (evaluate depth) head operands m (.primitive p) args m')
      (ht : p.total? args = some n) (hn : Text.isWritable n = false) :
      Overruns (depth + 1) (.list i (head :: operands)) m
  | inner {depth : Nat} {form f : Value} {m m' : Machine} (hf : Enters (evaluate depth) form m f m')
      (h : Overruns depth f m') : Overruns (depth + 1) form m

theorem halts_of_overruns {depth : Nat} {form : Value} (h : Overruns depth form m) :
    Halts (evaluate depth form) m .longNumber := by
  induction h with
  | total hs hc ht hn => exact halts_step_of_primitive hs hc (Primitive.compute_of_overlong ht hn)
  | inner hf _ ih => exact halts_step_of_enters hf ih

end DynamicLisp.Eval
