import DynamicLisp.Proofs.Eval.Halting
import DynamicLisp.Proofs.Eval.Renaming
import DynamicLisp.Session

/-! The guards of the language. The engine refuses to apply what is no procedure and a scope refuses
a name that is no symbol, but neither is ever handed such a thing. Main statement: whatever the
guards do, evaluation takes the same course, and it ends in no fault of theirs or of the reader. -/
namespace DynamicLisp.Eval

/-- What becomes of an application of what is no procedure, and of a binding whose name is no
symbol. -/
structure Guards where
  application : Value → List Value → Eval Value
  binding : Value → Value → Eval Unit

namespace Guards

/-- The guards of the language refuse both. -/
def refusing : Guards where
  application fn _ := do fail (.notApplicable (← ofHalt fn.inspect?))
  binding name _ := do fail (.nameNotSymbol (← ofHalt name.describe?))

section Guarded
variable (g : Guards) (ev : Value → Eval Value)

/-- Binds a name given as a value in the current scope. -/
def bindName (name v : Value) : Eval Unit :=
  match name with
  | .symbol _ x => define x v
  | other => g.binding other v

/-- Binds one name after the other. -/
def bindEach : List (Value × Value) → Eval Unit
  | [] => pure ()
  | b :: bs => do
    g.bindName b.1 b.2
    bindEach bs

/-- The engine: it applies procedures, which `apply` hands back to it, and leaves the rest to its
guard. A lambda binds its parameters one by one in the scope that it opens. -/
def engine (fn : Value) (args : List Value) : Eval Value :=
  match fn with
  | .lambda _ name params body =>
    if args.length = params.length then
      within .empty do
        g.bindEach ((params.map (.symbol .reader)).zip args)
        inOrder ev .nil body
    else fail (.arity name params.length)
  | .native (.primitive p) => do ofHalt (p.compute (← newIdentity) args)
  | .native .begin => call ev .begin args
  | .native .apply =>
    match args with
    | f :: first :: others =>
      if f.isProcedure then
        match _h : Callee.spread first others with
        | .ok vs => engine f vs
        | .error e => fail e
      else fail .notProcedure
    | _ => fail (.operandCount "apply" args.length)
  | other => g.application other args
termination_by Value.sizes args
decreasing_by
  have := Callee.sizes_spread _h
  simp only [Value.sizes]
  omega

/-- Definitions, with the name handed on as it stands in the form. -/
def defineForm : List Value → Eval Value
  | [] => fail .defineNothing
  | .symbol i name :: body =>
    match body with
    | [] => do
      report (.definedVariable name)
      g.bindName (.symbol i name) .nil
      pure .nil
    | [form] => do
      let v ← ev form
      report (.definedVariable name)
      g.bindName (.symbol i name) v
      pure .nil
    | _ => fail .defineExcess
  | .list _ (.symbol i name :: params) :: body => do
    let params ← ofHalt (parameterNames params)
    report (.definedFunction name params.length)
    g.bindName (.symbol i name) (.lambda (← newIdentity) name params body)
    pure .nil
  | _ => fail .defineTarget

/-- Calls what the head evaluates to, by way of the engine. -/
def callForm (head : Value) (operands : List Value) : Eval Value := do
  let fn ← ev head
  if fn.isProcedure then g.engine ev fn (← arguments ev fn operands)
  else fail (.operatorNotProcedure (← ofHalt head.display?))

/-- One step of evaluation under the guards. -/
def step : Value → Eval Value
  | .list _ (head :: operands) =>
    match Special.ofHead? head with
    | some .define => g.defineForm ev operands
    | some .choice => choiceForm ev operands
    | none => g.callForm ev head operands
  | form => Eval.step ev form

/-- Evaluation under the guards. -/
def evaluate : (depth : Nat) → Value → Eval Value
  | 0, _ => throw .nesting
  | depth + 1, form => g.step (evaluate depth) form

end Guarded

variable {g : Guards} {ev : Value → Eval Value} {fn : Value} {args : List Value}

/-! ### What the guards are handed -/

theorem run_bindEach (i : Identity) (params : List String) (args : List Value) (m : Machine) :
    (g.bindEach ((params.map (.symbol i)).zip args)).run m =
      (.ok (), { m with env := { m.env with
        inner := (params.zip args).foldl (fun f b => f.define b.1 b.2) m.env.inner } }) := by
  induction params generalizing args m with
  | nil => rfl
  | cons x params ih =>
    cases args with
    | nil => rfl
    | cons a args =>
      rw [List.map_cons, List.zip_cons_cons, bindEach, run_bind]
      exact ih args _

/-- Binding the parameters one by one opens the scope that binds them all. -/
theorem within_bindEach {α : Type} (i : Identity) (params : List String) (args : List Value)
    (x : Eval α) :
    (within .empty do
        g.bindEach ((params.map (.symbol i)).zip args)
        x) = within (.ofParameters params args) x := by
  refine funext fun m => ?_
  change (within .empty _).run m = (within _ x).run m
  rw [run_within, run_within, run_bind, run_bindEach]
  rfl

/-- Handed a procedure, the engine hands itself procedures only. -/
theorem engine_of_isProcedure (h : fn.isProcedure) :
    g.engine ev fn args = applyWith ev fn args := by
  fun_induction engine g ev fn args with
  | case1 args i name params body hl =>
    rw [within_bindEach]
    simp only [applyWith, Callee.resolve, ofHalt, pure_bind, call, if_pos hl]
  | case2 args i name params body hl =>
    simp only [applyWith, Callee.resolve, ofHalt, pure_bind, call, if_neg hl]
  | case3 args p => rw [applyWith_primitive]
  | case4 args => rw [applyWith, Callee.resolve_begin, ofHalt, pure_bind]
  | case5 f first others hp vs hs ih =>
    rw [ih hp, applyWith, applyWith, Callee.resolve_apply hp hs]
  | case6 f first others hp e hs =>
    rw [applyWith, Callee.resolve_apply_of_error hp hs]
    rfl
  | case7 f first others hp =>
    rw [applyWith, Callee.resolve, if_neg hp]
    rfl
  | case8 args hargs =>
    rw [applyWith, Callee.resolve]
    · rfl
    · exact hargs
  | case9 args other hlambda hprimitive hbegin happly =>
    -- the procedures are all taken apart above
    rw [Callee.isProcedure_eq_false_of_ne hlambda hprimitive hbegin happly] at h
    cases h

/-- The guards of the language are what the evaluator does with anything else. -/
theorem engine_refusing (fn : Value) (args : List Value) :
    refusing.engine ev fn args = applyWith ev fn args := by
  cases h : fn.isProcedure with
  | true => exact engine_of_isProcedure h
  | false =>
    have hg : refusing.engine ev fn args = refusing.application fn args := by
      cases fn with
      | lambda i name params body => cases h
      | native f => cases h
      | _ =>
        unfold engine
        rfl
    rw [hg, applyWith, Callee.resolve_of_not_procedure h]
    change (do fail (.notApplicable (← ofHalt fn.inspect?)) : Eval Value) = _
    cases fn.inspect? <;> rfl

/-- A scope that refuses names does so as a frame does with names given as values. -/
theorem run_bindName_refusing (name v : Value) (m : Machine) :
    (refusing.bindName name v).run m =
      match m.env.inner.bindName name v with
      | .ok f => (.ok (), { m with env := { m.env with inner := f } })
      | .error e => (.error e, m) := by
  cases h : name.isSymbol with
  | true =>
    cases name with
    | symbol i x => rfl
    | _ => cases h
  | false =>
    have hg : refusing.bindName name v =
        (do fail (.nameNotSymbol (← ofHalt name.describe?)) : Eval Unit) := by
      cases name with
      | symbol i x => cases h
      | _ => rfl
    have hf : m.env.inner.bindName name v =
        (do throw (.fault (.nameNotSymbol (← name.describe?)))) := by
      cases name with
      | symbol i x => cases h
      | _ => rfl
    rw [hg, hf]
    cases name.describe? <;> rfl

/-! ### Evaluation -/

theorem defineForm_eq (operands : List Value) :
    g.defineForm ev operands = Eval.defineForm ev operands := by
  rcases operands with _ | ⟨target, body⟩
  · rfl
  · cases target with
    | symbol i x => rcases body with _ | ⟨form, _ | ⟨other, rest⟩⟩ <;> rfl
    | list i items =>
      rcases items with _ | ⟨head, params⟩
      · rfl
      · cases head <;> rfl
    | _ => rfl

theorem callForm_eq (head : Value) (operands : List Value) :
    g.callForm ev head operands = Eval.callForm ev head operands := by
  unfold callForm Eval.callForm
  refine bind_congr fun fn => ?_
  split
  · next h => exact bind_congr fun vs => engine_of_isProcedure h
  · rfl

theorem step_eq (form : Value) : g.step ev form = Eval.step ev form := by
  unfold step
  split
  · next head operands =>
    rw [Eval.step]
    cases Special.ofHead? head with
    | none => exact callForm_eq head operands
    | some s =>
      cases s with
      | define => exact defineForm_eq operands
      | choice => rfl
  · rfl

/-- Evaluation takes one course under all guards. -/
theorem evaluate_eq (g : Guards) (depth : Nat) : g.evaluate depth = Eval.evaluate depth := by
  induction depth with
  | zero => rfl
  | succ depth ih =>
    funext form
    rw [evaluate, Eval.evaluate, ih, step_eq]

end Guards

/-- A parameter list that is accepted consists of symbols. -/
theorem map_anonymous_of_parameterNames {params : List Value} {names : List String}
    (h : parameterNames params = .ok names) :
    params.map Value.anonymous = names.map (.symbol .reader) := by
  induction params generalizing names with
  | nil =>
    cases h
    rfl
  | cons param params ih =>
    cases hs : param.isSymbol with
    | true =>
      cases param with
      | symbol i x =>
        obtain ⟨names, hn, rfl⟩ := Primitive.map_eq_ok h
        rw [List.map_cons, List.map_cons, ih hn]
        rfl
      | _ => cases hs
    | false =>
      rw [parameterNames_of_not_symbol hs] at h
      obtain ⟨text, _, h⟩ := Primitive.bind_eq_ok h
      cases h

/-! ### Faults of evaluations -/

/-- The faults of an evaluation are those that evaluation can find. -/
theorem isDynamic_of_evaluate {depth : Nat} {form : Value} {m : Machine} {f : Fault}
    (h : Halts (evaluate depth form) m (.fault f)) : f.isDynamic := by
  -- inward along the evaluations entered, to where the fault is found
  induction depth generalizing form m with
  | zero => cases h
  | succ depth ih =>
    generalize he : Halt.fault f = e at h
    cases origin_of_step (fun hl => by cases he.trans hl) h with
    | fault hf =>
      cases he
      exact hf
    | inner _ hin =>
      subst he
      exact ih hin
    | primitive _ _ hp =>
      subst he
      exact (Primitive.ofCall_of_compute hp).isDynamic

private theorem kind_of_isDynamic {f : Fault} (h : f.isDynamic) :
    f.kind ∉ [.emptyProgram, .missingCloseParen, .unexpectedCloseParen,
      .expectedOpenParenAfterQuote, .typing] := by
  cases f with
  | emptyProgram | missingCloseParen | unexpectedCloseParen | quoteWithoutList | notSymbol
  | nameNotSymbol => cases h
  | _ => simp [Fault.kind]

private theorem message_of_notCallable {f : Fault} (h : f.isDynamic) (hk : f.kind = .notCallable)
    (text : String) : f.message ≠ "Cannot apply non-function " ++ text := by
  intro he
  have hc : f.message.toList.head? = some 'C' := by
    rw [he, String.toList_append]
    rfl
  cases f with
  | operatorNotProcedure text' =>
    have hm : (Fault.operatorNotProcedure text').message = "Expected function, found " ++ text' :=
      rfl
    rw [hm, String.toList_append] at hc
    cases hc
  | notProcedure => cases hc
  | notApplicable text' => cases h
  | _ => cases hk

/-- Guards: whatever form is evaluated in whatever state, a fault that comes of it is none of the
reader, no bare fault of typing, and not the refusal to apply what is no procedure. For the engine
is handed procedures only and scopes are handed symbols only, in a call those of the parameter list:
what the guards would do to anything else makes no difference. -/
theorem guards_unreached (depth : Nat) (form : Value) (m : Machine) :
    (∀ f, Halts (evaluate depth form) m (.fault f) →
      f.kind ≠ .emptyProgram ∧ f.kind ≠ .missingCloseParen ∧ f.kind ≠ .unexpectedCloseParen ∧
      f.kind ≠ .expectedOpenParenAfterQuote ∧ f.kind ≠ .typing ∧
      (f.kind = .notCallable → ∀ text, f.message ≠ "Cannot apply non-function " ++ text)) ∧
    (∀ g : Guards, (g.evaluate depth form).run m = (evaluate depth form).run m) ∧
    ∀ params names, parameterNames params = .ok names →
      params.map Value.anonymous = names.map (.symbol .reader) := by
  refine ⟨fun f h => ?_, fun g => by rw [g.evaluate_eq],
    fun _ _ => map_anonymous_of_parameterNames⟩
  have hd : f.isDynamic := isDynamic_of_evaluate h
  have hk := kind_of_isDynamic hd
  simp only [List.mem_cons, List.not_mem_nil, or_false, not_or] at hk
  obtain ⟨hempty, hmissing, hunexpected, hquote, htyping⟩ := hk
  exact ⟨hempty, hmissing, hunexpected, hquote, htyping, message_of_notCallable hd⟩

/-! A function hands `apply` a number. That is refused before the engine comes to it, so guards that
let everything pass have nothing to do. -/

abbrev calling : Session :=
  ((Session.start 9).eval "(define (call g) (apply g (list 1)))").2

abbrev callFive : Value :=
  .list 0 [.symbol 0 "call", .int 5]

abbrev lenient : Guards where
  application _ _ := pure .nil
  binding _ _ := pure ()

theorem guards_unreached_callFive :
    Halts (evaluate 9 callFive) calling.machine (.fault .notProcedure) ∧
      (∀ text, Fault.notProcedure.message ≠ "Cannot apply non-function " ++ text) ∧
      (lenient.evaluate 9 callFive).run calling.machine =
        (evaluate 9 callFive).run calling.machine ∧
      [Value.symbol 0 "g"].map Value.anonymous = ["g"].map (.symbol .reader) := by
  have h : Halts (evaluate 9 callFive) calling.machine (.fault .notProcedure) := by
    unfold Halts
    cbv
  obtain ⟨hfault, hguards, hparams⟩ := guards_unreached 9 callFive calling.machine
  obtain ⟨_, _, _, _, _, hmessage⟩ := hfault _ h
  exact ⟨h, hmessage rfl, hguards lenient, hparams _ _ rfl⟩

end DynamicLisp.Eval
