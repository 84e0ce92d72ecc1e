import DynamicLisp.Eval.Basic

/-! Evaluations within an evaluation. `Enters` lists the evaluations of other forms to which one
step comes, each with the machine at that moment. Main statement: a step depends on the evaluation
of other forms at the moments listed and at no others, so the list is complete. -/
namespace DynamicLisp.Eval

section Moments
variable (ev : Value → Eval Value)

/-- The evaluation of several forms in order, from `m`, comes to the form `f` at `m'`. -/
inductive Reaches : List Value → Machine → Value → Machine → Prop where
  | here {f : Value} {forms : List Value} {m : Machine} : Reaches (f :: forms) m f m
  | later {g f v : Value} {forms : List Value} {m m₁ m' : Machine}
      (hg : (ev g).run m = (.ok v, m₁)) (h : Reaches forms m₁ f m') : Reaches (g :: forms) m f m'

/-- A form with this head and these operands, evaluated from `m`, comes to call `callee` with `args`
at `m'`. -/
def Calls (head : Value) (operands : List Value) (m : Machine) (callee : Callee) (args : List Value)
    (m' : Machine) : Prop :=
  ∃ fn vs m₁, (ev head).run m = (.ok fn, m₁) ∧ fn.isProcedure ∧
    (arguments ev fn operands).run m₁ = (.ok vs, m') ∧ Callee.resolve fn vs = .ok (callee, args)

/-- The machine in the scope that a call of a lambda opens. -/
def scopeOf (params : List String) (args : List Value) (m : Machine) : Machine :=
  { m with env := m.env.push (.ofParameters params args) }

/-- One step on a form, from `m`, comes to evaluate the form `f` at `m'`. -/
inductive Enters : Value → Machine → Value → Machine → Prop where
  | value {i j : Identity} {head f : Value} {x : String} {m : Machine}
      (hs : Special.ofHead? head = some .define) : Enters (.list i [head, .symbol j x, f]) m f m
  | condition {i : Identity} {head c f : Value} {alternatives : List Value} {m : Machine}
      (hs : Special.ofHead? head = some .choice) :
      Enters (.list i (head :: c :: f :: alternatives)) m c m
  | consequent {i : Identity} {head c f : Value} {alternatives : List Value} {m m' : Machine}
      (hs : Special.ofHead? head = some .choice) (hc : (ev c).run m = (.ok (.bool true), m')) :
      Enters (.list i (head :: c :: f :: alternatives)) m f m'
  | alternative {i : Identity} {head c f g : Value} {m m' : Machine}
      (hs : Special.ofHead? head = some .choice) (hc : (ev c).run m = (.ok (.bool false), m')) :
      Enters (.list i [head, c, f, g]) m g m'
  | operator {i : Identity} {head : Value} {operands : List Value} {m : Machine}
      (hs : Special.ofHead? head = none) : Enters (.list i (head :: operands)) m head m
  | operand {i : Identity} {head fn f : Value} {operands : List Value} {m m₁ m' : Machine}
      (hs : Special.ofHead? head = none) (hh : (ev head).run m = (.ok fn, m₁))
      (hp : fn.isProcedure) (ht : fn.takesForms = false) (h : Reaches ev operands m₁ f m') :
      Enters (.list i (head :: operands)) m f m'
  | body {i : Identity} {head f : Value} {operands args body : List Value} {name : String}
      {params : List String} {m m₁ m' : Machine} (hs : Special.ofHead? head = none)
      (hc : Calls ev head operands m (.lambda name params body) args m₁)
      (hl : args.length = params.length) (h : Reaches ev body (scopeOf params args m₁) f m') :
      Enters (.list i (head :: operands)) m f m'
  | sequence {i : Identity} {head f : Value} {operands forms : List Value} {m m₁ m' : Machine}
      (hs : Special.ofHead? head = none) (hc : Calls ev head operands m .begin forms m₁)
      (h : Reaches ev forms m₁ f m') : Enters (.list i (head :: operands)) m f m'

end Moments

variable {ev ev' : Value → Eval Value} {m : Machine}

/-! ### Calls -/

/-- A form whose head is a procedure for values evaluates its operands and applies the procedure. -/
theorem run_callForm {head fn : Value} {operands : List Value} {m₁ : Machine}
    (hh : (ev head).run m = (.ok fn, m₁)) (hp : fn.isProcedure) (ht : fn.takesForms = false) :
    (callForm ev head operands).run m = (each ev operands >>= applyWith ev fn).run m₁ := by
  rw [callForm, run_bind, hh]
  simp only [hp, if_true, arguments, ht, Bool.false_eq_true, if_false]

theorem applyWith_primitive (p : Primitive) (args : List Value) :
    applyWith ev (.native (.primitive p)) args =
      newIdentity >>= fun fresh => ofHalt (p.compute fresh args) := by
  rw [applyWith, Callee.resolve]
  rfl

/-- A primitive takes one identity, whether it uses it or not. -/
theorem run_call_primitive (p : Primitive) (args : List Value) (m : Machine) :
    (call ev (.primitive p) args).run m =
      (p.compute m.fresh args, { m with fresh := m.fresh + 1 }) := by
  rw [call, run_bind, run_newIdentity]
  exact run_ofHalt _ _

/-! ### Completeness -/

theorem run_each_congr {forms : List Value}
    (h : ∀ f m', Reaches ev forms m f m' → (ev f).run m' = (ev' f).run m') :
    (each ev forms).run m = (each ev' forms).run m := by
  induction forms generalizing m with
  | nil => rfl
  | cons form forms ih =>
    simp only [each, run_bind]
    rw [← h form m .here]
    generalize hr : (ev form).run m = r at h
    obtain ⟨r, m₁⟩ := r
    cases r with
    | error e => rfl
    | ok v =>
      simp only
      rw [ih fun f m' hf => h f m' (.later hr hf)]

private theorem run_inOrder_congr (last : Value) {forms : List Value}
    (h : ∀ f m', Reaches ev forms m f m' → (ev f).run m' = (ev' f).run m') :
    (inOrder ev last forms).run m = (inOrder ev' last forms).run m := by
  induction forms generalizing last m with
  | nil => rfl
  | cons form forms ih =>
    simp only [inOrder, run_bind]
    rw [← h form m .here]
    generalize hr : (ev form).run m = r at h
    obtain ⟨r, m₁⟩ := r
    cases r with
    | error e => rfl
    | ok v => exact ih v fun f m' hf => h f m' (.later hr hf)

private theorem run_arguments_congr {fn : Value} {operands : List Value}
    (h : fn.takesForms = false →
      ∀ f m', Reaches ev operands m f m' → (ev f).run m' = (ev' f).run m') :
    (arguments ev fn operands).run m = (arguments ev' fn operands).run m := by
  unfold arguments
  cases ht : fn.takesForms with
  | true => rfl
  | false => exact run_each_congr (h ht)

private theorem run_call_congr {callee : Callee} {args : List Value}
    (hbody : ∀ name params body, callee = .lambda name params body → args.length = params.length →
      ∀ f m', Reaches ev body (scopeOf params args m) f m' → (ev f).run m' = (ev' f).run m')
    (hbegin : callee = .begin → ∀ f m', Reaches ev args m f m' → (ev f).run m' = (ev' f).run m') :
    (call ev callee args).run m = (call ev' callee args).run m := by
  cases callee with
  | lambda name params body =>
    simp only [call]
    split
    · next hl =>
      rw [run_within, run_within]
      have hb := run_inOrder_congr .nil (hbody name params body rfl hl)
      unfold scopeOf at hb
      rw [hb]
    · rfl
  | primitive p => rfl
  | begin =>
    cases args with
    | nil => rfl
    | cons form forms => exact run_inOrder_congr .nil (hbegin rfl)

private theorem run_callForm_congr {i : Identity} {head : Value} {operands : List Value}
    (hs : Special.ofHead? head = none)
    (h : ∀ f m', Enters ev (.list i (head :: operands)) m f m' → (ev f).run m' = (ev' f).run m') :
    (callForm ev head operands).run m = (callForm ev' head operands).run m := by
  simp only [callForm, run_bind]
  rw [← h head m (.operator hs)]
  generalize hh : (ev head).run m = r
  obtain ⟨r, m₁⟩ := r
  cases r with
  | error e => rfl
  | ok fn =>
    simp only
    split
    · next hp =>
      simp only [run_bind]
      rw [← run_arguments_congr fun ht f m' hf => h f m' (.operand hs hh hp ht hf)]
      generalize ha : (arguments ev fn operands).run m₁ = r
      obtain ⟨r, m₂⟩ := r
      cases r with
      | error e => rfl
      | ok vs =>
        simp only [applyWith, run_bind, run_ofHalt]
        cases hc : Callee.resolve fn vs with
        | error e => rfl
        | ok ca =>
          obtain ⟨callee, args⟩ := ca
          have hcalls : Calls ev head operands m callee args m₂ := ⟨fn, vs, m₁, hh, hp, ha, hc⟩
          refine run_call_congr ?_ ?_
          · rintro name params body rfl hl f m' hf
            exact h f m' (.body hs hcalls hl hf)
          · rintro rfl f m' hf
            exact h f m' (.sequence hs hcalls hf)
    · rfl

private theorem run_defineForm_congr {i : Identity} {head : Value} {operands : List Value}
    (hs : Special.ofHead? head = some .define)
    (h : ∀ f m', Enters ev (.list i (head :: operands)) m f m' → (ev f).run m' = (ev' f).run m') :
    (defineForm ev operands).run m = (defineForm ev' operands).run m := by
  cases operands with
  | nil => rfl
  | cons target body =>
    cases target with
    | symbol j x =>
      rcases body with _ | ⟨f, _ | ⟨g, rest⟩⟩
      · rfl
      · simp only [defineForm, run_bind]
        rw [h f m (.value hs)]
      · rfl
    | list j params =>
      cases params with
      | nil => rfl
      | cons param params => cases param <;> rfl
    | _ => rfl

private theorem run_choiceForm_congr {i : Identity} {head : Value} {operands : List Value}
    (hs : Special.ofHead? head = some .choice)
    (h : ∀ f m', Enters ev (.list i (head :: operands)) m f m' → (ev f).run m' = (ev' f).run m') :
    (choiceForm ev operands).run m = (choiceForm ev' operands).run m := by
  rcases operands with _ | ⟨c, _ | ⟨f, alternatives⟩⟩
  · rfl
  · rfl
  · simp only [choiceForm, run_bind]
    rw [← h c m (.condition hs)]
    generalize hc : (ev c).run m = r
    obtain ⟨r, m₁⟩ := r
    cases r with
    | error e => rfl
    | ok v =>
      cases v with
      | bool b =>
        cases b with
        | true => exact h f m₁ (.consequent hs hc)
        | false =>
          rcases alternatives with _ | ⟨g, _ | ⟨k, rest⟩⟩
          · rfl
          · exact h g m₁ (.alternative hs hc)
          · rfl
      | _ => rfl

/-- Two ways to evaluate other forms that agree at all moments that a step enters give the step one
course. -/
theorem run_step_congr {form : Value}
    (h : ∀ f m', Enters ev form m f m' → (ev f).run m' = (ev' f).run m') :
    (step ev form).run m = (step ev' form).run m := by
  cases form with
  | list i items =>
    cases items with
    | nil => rfl
    | cons head operands =>
      simp only [step]
      split
      · next hs => exact run_defineForm_congr hs h
      · next hs => exact run_choiceForm_congr hs h
      · next hs => exact run_callForm_congr hs h
  | _ => rfl

end DynamicLisp.Eval
