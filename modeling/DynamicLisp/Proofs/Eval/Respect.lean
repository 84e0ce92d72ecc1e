import DynamicLisp.Proofs.Eval.Discipline

/-! Evaluation respects disciplines. One case for each kind of form shows that a step respects what
the evaluation of its sub-forms respects; the bound on nesting carries this to whole evaluations. -/
namespace DynamicLisp.Discipline.Scoping
open Eval
variable {D : Discipline} {S : D.Scoping} {ev : Value → Eval Value} {p : String → Prop}

/-- An evaluation that respects a scoping: a form defines what it may and gives a permitted value.
-/
def Evaluates (S : D.Scoping) (ev : Value → Eval Value) : Prop :=
  ∀ f, D.form f → S.Respects (D.defines f) D.data (ev f)

/-! ### Rows of forms -/

theorem respects_each {forms : List Value} (h : ∀ f ∈ forms, S.Respects p D.data (ev f)) :
    S.Respects p (fun vs => ∀ v ∈ vs, D.data v) (each ev forms) := by
  induction forms with
  | nil => exact respects_pure fun v hv => (List.not_mem_nil hv).elim
  | cons form forms ih =>
    refine respects_bind (h form (.head _)) fun v hv => ?_
    refine respects_bind (ih fun f hf => h f (.tail _ hf)) fun vs hvs => ?_
    exact respects_pure fun w hw => (List.mem_cons.mp hw).elim (fun he => he ▸ hv) (hvs w)

theorem respects_inOrder {last : Value} {forms : List Value} (hl : D.data last)
    (h : ∀ f ∈ forms, S.Respects p D.data (ev f)) :
    S.Respects p D.data (inOrder ev last forms) := by
  induction forms generalizing last with
  | nil => exact respects_pure hl
  | cons form forms ih =>
    exact respects_bind (h form (.head _)) fun v hv => ih hv fun f hf => h f (.tail _ hf)

/-! ### Calls -/

private theorem respects_beginning {forms : List Value}
    (h : ∀ f ∈ forms, S.Respects p D.data (ev f)) :
    S.Respects p D.data (call ev .begin forms) := by
  cases forms with
  | nil => exact respects_fail .beginNothing
  | cons form forms => exact respects_inOrder D.nil h

/-- A call with permitted arguments; those of `begin` are evaluated once more, as forms. -/
theorem respects_call (hev : S.Evaluates ev) {callee : Callee} {args : List Value}
    (hc : D.Callable callee) (hargs : ∀ a ∈ args, D.data a)
    (hp : ∀ v name, D.data v → D.defines v name → p name) :
    S.Respects p D.data (call ev callee args) := by
  cases callee with
  | lambda name params body =>
    simp only [call]
    split
    · refine respects_within (q := fun _ => True) hc.1 hargs (respects_inOrder D.nil ?_)
      exact fun f hf => (hev f (hc.2 f hf)).mono fun _ _ => trivial
    · exact respects_fail _
  | primitive prim =>
    refine respects_bind respects_newIdentity fun fresh _ => ?_
    exact respects_ofHalt fun v hv => D.data_of_compute hargs hv
  | begin =>
    -- values become forms here, and `hp` bounds what they may define in the scope of the call
    refine respects_beginning fun a ha => ?_
    exact (hev a (D.form_of_data (hargs a ha))).mono fun name => hp a name (hargs a ha)

/-- The application of a permitted value to permitted arguments. -/
theorem respects_applyWith (hev : S.Evaluates ev) {fn : Value} {args : List Value} (hf : D.data fn)
    (hargs : ∀ a ∈ args, D.data a) (hp : ∀ v name, D.data v → D.defines v name → p name) :
    S.Respects p D.data (applyWith ev fn args) := by
  refine respects_bind (Q := fun ca => D.Callable ca.1 ∧ ∀ a ∈ ca.2, D.data a)
    (respects_ofHalt fun ca hca => D.callable_of_resolve hf hargs hca) fun ca hca => ?_
  exact respects_call hev hca.1 hca.2 hp

theorem eq_begin_of_takesForms {fn : Value} (h : fn.takesForms) : fn = .native .begin := by
  cases fn with
  | native f => cases f <;> simp_all [Value.takesForms, Native.takesForms]
  | _ => cases h

private theorem respects_applyWith_begin {forms : List Value}
    (h : ∀ f ∈ forms, S.Respects p D.data (ev f)) :
    S.Respects p D.data (applyWith ev (.native .begin) forms) := by
  unfold applyWith
  rw [Callee.resolve_begin]
  exact respects_bind (Q := fun ca => ca = (.begin, forms)) (respects_pure rfl)
    fun ca hca => hca ▸ respects_beginning h

private theorem respects_callForm (hev : S.Evaluates ev) {i : Identity} {head : Value}
    {operands : List Value} (hf : D.form (.list i (head :: operands)))
    (hs : Special.ofHead? head = none) :
    S.Respects (D.defines (.list i (head :: operands))) D.data (callForm ev head operands) := by
  have hitem : ∀ f ∈ head :: operands,
      S.Respects (D.defines (.list i (head :: operands))) D.data (ev f) := fun f hm =>
    (hev f (D.items hf f hm)).mono fun _ => D.defines_item (by simp [hs]) hm
  have hoperands : ∀ f ∈ operands,
      S.Respects (D.defines (.list i (head :: operands))) D.data (ev f) := fun f hm =>
    hitem f (.tail head hm)
  refine respects_bind (hitem head (.head _)) fun fn hfn => ?_
  split
  · cases ht : fn.takesForms with
    | true =>
      rw [eq_begin_of_takesForms ht]
      refine respects_bind (Q := fun vs => vs = operands) (respects_pure rfl) fun vs hvs => ?_
      rw [hvs]
      exact respects_applyWith_begin hoperands
    | false =>
      -- also `begin` behind `apply` comes here, so what it gets are values
      rw [arguments, ht]
      refine respects_bind (respects_each hoperands) fun vs hvs => ?_
      exact respects_applyWith hev hfn hvs fun _ _ => D.defines_of_data
  · exact respects_bind (Q := fun _ => True) (respects_ofHalt fun _ _ => trivial)
      fun text _ => respects_fail _

/-! ### Special forms -/

private theorem mem_of_parameterNames {params : List Value} {names : List String} {x : String}
    (h : parameterNames params = .ok names) (hx : x ∈ names) : ∃ i, Value.symbol i x ∈ params := by
  induction params generalizing names with
  | nil =>
    cases h
    exact (List.not_mem_nil hx).elim
  | cons param params ih =>
    cases param with
    | symbol i y =>
      cases hn : parameterNames params with
      | error e => simp [parameterNames, hn, Except.map] at h
      | ok ys =>
        simp only [parameterNames, hn, Except.map, Except.ok.injEq] at h
        subst h
        rcases List.mem_cons.mp hx with rfl | hx
        · exact ⟨i, .head _⟩
        · obtain ⟨j, hj⟩ := ih hn hx
          exact ⟨j, .tail _ hj⟩
    | _ =>
      simp only [parameterNames, bind, Except.bind] at h
      split at h <;> cases h

private theorem respects_defineForm (hev : S.Evaluates ev) {i : Identity} {head : Value}
    {operands : List Value} (hf : D.form (.list i (head :: operands)))
    (hs : Special.ofHead? head = some .define) :
    S.Respects (D.defines (.list i (head :: operands))) D.data (defineForm ev operands) := by
  have hitem : ∀ f ∈ operands, D.form f := fun f hm => D.items hf f (.tail head hm)
  fun_cases defineForm ev operands with
  | case1 => exact respects_fail _
  | case2 j x =>
    refine respects_bind (respects_report _) fun _ _ => ?_
    have hx : D.name x := D.symbol (hitem _ (.head _))
    exact respects_bind (respects_define (D.defines_variable hs) hx D.nil)
      fun _ _ => respects_pure D.nil
  | case3 j x form =>
    have hx : D.name x := D.symbol (hitem _ (.head _))
    have hform := (hev form (hitem _ (.tail _ (.head _)))).mono
      (q := D.defines (.list i [head, .symbol j x, form])) fun _ => D.defines_value hs
    refine respects_bind hform fun v hv => ?_
    refine respects_bind (respects_report _) fun _ _ => ?_
    exact respects_bind (respects_define (D.defines_variable hs) hx hv)
      fun _ _ => respects_pure D.nil
  | case4 => exact respects_fail _
  | case5 j k x params body =>
    have hparam : ∀ f ∈ Value.symbol k x :: params, D.form f := D.items (hitem _ (.head _))
    refine respects_bind (Q := fun names => ∀ y ∈ names, D.name y) ?_ fun names hnames => ?_
    · refine respects_ofHalt fun names hnames y hy => ?_
      obtain ⟨l, hl⟩ := mem_of_parameterNames hnames hy
      exact D.symbol (hparam _ (.tail _ hl))
    · refine respects_bind (respects_report _) fun _ _ => ?_
      refine respects_bind respects_newIdentity fun fresh _ => ?_
      have hl : D.data (.lambda fresh x names body) :=
        D.lambda.mpr ⟨hnames, fun g hg => hitem g (.tail _ hg)⟩
      have hx : D.name x := D.symbol (hparam _ (.head _))
      exact respects_bind (respects_define (D.defines_function hs) hx hl)
        fun _ _ => respects_pure D.nil
  | case6 => exact respects_fail _

private theorem respects_choiceForm {operands : List Value}
    (h : ∀ f ∈ operands, S.Respects p D.data (ev f)) :
    S.Respects p D.data (choiceForm ev operands) := by
  fun_cases choiceForm ev operands with
  | case1 condition consequent alternatives =>
    refine respects_bind (h condition (.head _)) fun c _ => ?_
    split
    · exact h consequent (.tail _ (.head _))
    · split
      · exact respects_pure D.nil
      · exact h _ (.tail _ (.tail _ (.head _)))
      · exact respects_fail _
    · exact respects_fail _
  | case2 => exact respects_fail _

/-! ### Evaluation -/

/-- One step respects a scoping if the evaluation of other forms does. -/
theorem evaluates_step (hev : S.Evaluates ev) : S.Evaluates (step ev) := by
  intro f hf
  fun_cases step ev f with
  | case1 i x => exact respects_lookup (D.symbol hf)
  | case2 => exact respects_fail _
  | case3 i head operands hs => exact respects_defineForm hev hf hs
  | case4 i head operands hs =>
    refine respects_choiceForm fun f hm => ?_
    exact (hev f (D.items hf f (.tail head hm))).mono fun _ =>
      D.defines_item (by simp [hs]) (.tail head hm)
  | case5 i head operands hs => exact respects_callForm hev hf hs
  | case6 i a d =>
    exact respects_bind (Q := fun _ => True) (respects_ofHalt fun _ _ => trivial)
      fun text _ => respects_fail _
  | case7 =>
    refine respects_pure (D.atom hf ?_)
    cases f with
    | list i items => cases items <;> simp_all
    | _ => simp_all [Value.isSelfEvaluating]

/-- Evaluation in environments that are alike ends alike, under every bound on its nesting. -/
theorem evaluates_evaluate (S : D.Scoping) (depth : Nat) : S.Evaluates (evaluate depth) := by
  -- one level of nesting is one step, with the levels below as the evaluation of other forms
  induction depth with
  | zero => exact fun f _ => respects_throw .nesting
  | succ depth ih => exact evaluates_step ih

/-- The same holds of the application of a value to arguments. -/
theorem respects_apply (S : D.Scoping) (depth : Nat) {fn : Value} {args : List Value}
    (hf : D.data fn) (hargs : ∀ a ∈ args, D.data a)
    (hp : ∀ v name, D.data v → D.defines v name → p name) :
    S.Respects p D.data (apply depth fn args) :=
  respects_applyWith (evaluates_evaluate S depth) hf hargs hp

end DynamicLisp.Discipline.Scoping
