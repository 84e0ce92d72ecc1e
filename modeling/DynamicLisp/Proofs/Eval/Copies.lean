import DynamicLisp.Proofs.Eval.Application
import DynamicLisp.Proofs.Value.Copies

/-! Copies of syntax in evaluations. Main statement: from machines that differ in the identities of
syntax alone, two copies of a form take one course, so nothing that a program does depends on which
copy of its syntax was used; and lambdas that are equal behave the same. -/
namespace DynamicLisp

/-- The machine with the values bound in it stripped. -/
def Machine.strip (m : Machine) : Machine :=
  { m with env := m.env.map (Value.strip false) }

namespace Eval
open Value
variable {α β : Type} {f : α → α} {g : β → β}

/-- Two computations that take one course from machines that differ in the identities of syntax
alone; `f` strips what they compute. -/
def Twins (f : α → α) (x y : Eval α) : Prop :=
  ∀ m n, m.strip = n.strip →
    (x.run m).1.map f = (y.run n).1.map f ∧ (x.run m).2.strip = (y.run n).2.strip

private theorem strip_eq_iff {m n : Machine} : m.strip = n.strip ↔
    m.env.map (strip false) = n.env.map (strip false) ∧ m.fresh = n.fresh ∧
      m.events = n.events := by
  simp [Machine.strip]

/-! ### Computations -/

theorem twins_pure {a b : α} (h : f a = f b) : Twins f (pure a) (pure b) :=
  fun _ _ hm => ⟨congrArg Except.ok h, hm⟩

theorem twins_throw (e : Halt) : Twins f (throw e) (throw e) :=
  fun _ _ hm => ⟨rfl, hm⟩

theorem twins_fail (e : Fault) : Twins f (fail e) (fail e) :=
  twins_throw (.fault e)

theorem twins_ofHalt {r s : Except Halt α} (h : r.map f = s.map f) :
    Twins f (ofHalt r) (ofHalt s) := by
  intro m n hm
  rw [run_ofHalt, run_ofHalt]
  exact ⟨h, hm⟩

theorem twins_bind {x y : Eval α} {k l : α → Eval β} (h : Twins f x y)
    (hk : ∀ a b, f a = f b → Twins g (k a) (l b)) : Twins g (x >>= k) (y >>= l) := by
  intro m n hm
  rw [run_bind, run_bind]
  obtain ⟨hr, hm'⟩ := h m n hm
  generalize x.run m = rx at hr hm' ⊢
  generalize y.run n = ry at hr hm' ⊢
  obtain ⟨rx, m'⟩ := rx
  obtain ⟨ry, n'⟩ := ry
  cases rx with
  | error e =>
    cases ry with
    | error e' =>
      cases hr
      exact ⟨rfl, hm'⟩
    | ok b => cases hr
  | ok a =>
    cases ry with
    | error e' => cases hr
    | ok b => exact hk a b (Except.ok.inj hr) m' n' hm'

theorem twins_newIdentity : Twins id newIdentity newIdentity := by
  intro m n hm
  obtain ⟨he, hf, hv⟩ := strip_eq_iff.mp hm
  rw [run_newIdentity, run_newIdentity, hf]
  exact ⟨rfl, strip_eq_iff.mpr ⟨he, rfl, hv⟩⟩

theorem twins_report (e : Event) : Twins id (report e) (report e) := by
  intro m n hm
  obtain ⟨he, hf, hv⟩ := strip_eq_iff.mp hm
  rw [run_report, run_report]
  exact ⟨rfl, strip_eq_iff.mpr ⟨he, hf, congrArg (e :: ·) hv⟩⟩

theorem twins_lookup (name : String) : Twins (strip false) (lookup name) (lookup name) := by
  intro m n hm
  have hl : (m.env.lookup? name).map (strip false) = (n.env.lookup? name).map (strip false) := by
    rw [← Environment.lookup?_map, (strip_eq_iff.mp hm).1, Environment.lookup?_map]
  rw [run_lookup, run_lookup]
  refine ⟨?_, hm⟩
  cases hv : m.env.lookup? name with
  | none =>
    cases hw : n.env.lookup? name with
    | none => rfl
    | some w => simp [hv, hw] at hl
  | some v =>
    cases hw : n.env.lookup? name with
    | none => simp [hv, hw] at hl
    | some w =>
      rw [hv, hw] at hl
      exact congrArg Except.ok (Option.some.inj hl)

theorem twins_define (name : String) {v w : Value} (h : v.strip false = w.strip false) :
    Twins id (define name v) (define name w) := by
  intro m n hm
  obtain ⟨he, hf, hv⟩ := strip_eq_iff.mp hm
  rw [run_define, run_define]
  refine ⟨rfl, strip_eq_iff.mpr ⟨?_, hf, hv⟩⟩
  rw [← Environment.define_map, he, h, Environment.define_map]

theorem twins_within {s t : Frame} {x y : Eval α} (hs : s.map (strip false) = t.map (strip false))
    (h : Twins f x y) : Twins f (within s x) (within t y) := by
  intro m n hm
  obtain ⟨he, hf, hv⟩ := strip_eq_iff.mp hm
  have hpush : (m.env.push s).map (strip false) = (n.env.push t).map (strip false) := by
    rw [← Environment.push_map, he, hs, Environment.push_map]
  obtain ⟨hr, hm'⟩ := h { m with env := m.env.push s } { n with env := n.env.push t }
    (strip_eq_iff.mpr ⟨hpush, hf, hv⟩)
  obtain ⟨he', hf', hv'⟩ := strip_eq_iff.mp hm'
  rw [run_within, run_within]
  refine ⟨hr, strip_eq_iff.mpr ⟨?_, hf', hv'⟩⟩
  rw [← Environment.pop_map, he', Environment.pop_map]

/-! ### Evaluations -/

section Forms
variable {ev : Value → Eval Value} {forms forms' args args' operands operands' : List Value}

private theorem exists_cons_of_map_eq {h : Value → Value} {v : Value} {vs ws : List Value}
    (he : (v :: vs).map h = ws.map h) :
    ∃ w ws', ws = w :: ws' ∧ h v = h w ∧ vs.map h = ws'.map h := by
  cases ws with
  | nil => cases he
  | cons w ws' => exact ⟨w, ws', rfl, (List.cons.inj he).1, (List.cons.inj he).2⟩

private theorem eq_nil_of_map_eq {h : Value → Value} {ws : List Value}
    (he : ([] : List Value).map h = ws.map h) : ws = [] :=
  List.map_eq_nil_iff.mp he.symm

/-- An evaluation that takes one course for all copies of a form. -/
def TwinForms (ev : Value → Eval Value) : Prop :=
  ∀ f g : Value, f.strip true = g.strip true → Twins (strip false) (ev f) (ev g)

theorem twins_each (hev : TwinForms ev)
    (h : forms.map (strip true) = forms'.map (strip true)) :
    Twins (List.map (strip false)) (each ev forms) (each ev forms') := by
  induction forms generalizing forms' with
  | nil =>
    obtain rfl := eq_nil_of_map_eq h
    exact twins_pure rfl
  | cons f fs ih =>
    obtain ⟨g, gs, rfl, hf, hfs⟩ := exists_cons_of_map_eq h
    refine twins_bind (hev f g hf) fun v w hv => twins_bind (ih hfs) fun vs ws hvs => ?_
    exact twins_pure (congrArg₂ List.cons hv hvs)

theorem twins_inOrder (hev : TwinForms ev) {last last' : Value}
    (hl : last.strip false = last'.strip false)
    (h : forms.map (strip true) = forms'.map (strip true)) :
    Twins (strip false) (inOrder ev last forms) (inOrder ev last' forms') := by
  induction forms generalizing forms' last last' with
  | nil =>
    obtain rfl := eq_nil_of_map_eq h
    exact twins_pure hl
  | cons f fs ih =>
    obtain ⟨g, gs, rfl, hf, hfs⟩ := exists_cons_of_map_eq h
    exact twins_bind (hev f g hf) fun v w hv => ih hv hfs

private theorem length_eq_of_map {h : Value → Value} (he : args.map h = args'.map h) :
    args.length = args'.length := by
  have hl := congrArg List.length he
  rwa [List.length_map, List.length_map] at hl

/-- Copies of data are copies as forms, one by one. -/
private theorem map_strip_true (h : args.map (strip false) = args'.map (strip false)) :
    args.map (strip true) = args'.map (strip true) := by
  have hf : ∀ vs : List Value, (vs.map (strip false)).map (strip true) = vs.map (strip true) := by
    intro vs
    rw [List.map_map]
    exact List.map_congr_left fun v _ => strip_true_strip false v
  rw [← hf args, h, hf args']

/-- A call takes operands as data, but `begin` takes them as forms. -/
theorem twins_call (hev : TwinForms ev) {callee callee' : Callee}
    (hc : callee.mapBody (strip true) = callee'.mapBody (strip true))
    (hforms : args.map (strip true) = args'.map (strip true))
    (hargs : callee ≠ .begin → args.map (strip false) = args'.map (strip false)) :
    Twins (strip false) (call ev callee args) (call ev callee' args') := by
  cases callee with
  | lambda name params body =>
    cases callee' with
    | lambda name' params' body' =>
      obtain ⟨rfl, rfl, hbody⟩ := Callee.lambda.inj hc
      simp only [call, length_eq_of_map hforms]
      split
      · refine twins_within ?_ (twins_inOrder hev rfl hbody)
        rw [← Frame.ofParameters_map, hargs (by simp), Frame.ofParameters_map]
      · exact twins_fail _
    | primitive p => cases hc
    | begin => cases hc
  | primitive p =>
    cases callee' with
    | lambda name params body => cases hc
    | primitive q =>
      obtain rfl := Callee.primitive.inj hc
      refine twins_bind twins_newIdentity fun fresh fresh' hfresh => twins_ofHalt ?_
      obtain rfl : fresh = fresh' := hfresh
      have hcompute : ∀ vs : List Value, (p.compute fresh vs).map (strip false) =
          p.compute fresh (vs.map (strip false)) := fun vs =>
        (Primitive.compute_relabels relabels_strip Function.injective_id p fresh vs).symm
      rw [hcompute, hcompute, hargs (by simp)]
    | begin => cases hc
  | begin =>
    cases callee' with
    | lambda name params body => cases hc
    | primitive p => cases hc
    | begin =>
      cases args with
      | nil =>
        obtain rfl := eq_nil_of_map_eq hforms
        exact twins_fail _
      | cons f fs =>
        obtain ⟨g, gs, rfl, _, _⟩ := exists_cons_of_map_eq hforms
        exact twins_inOrder hev rfl hforms

theorem twins_applyWith (hev : TwinForms ev) {fn fn' : Value}
    (hfn : fn.strip false = fn'.strip false)
    (hargs : args.map (strip false) = args'.map (strip false)) :
    Twins (strip false) (applyWith ev fn args) (applyWith ev fn' args') := by
  have hresolve : ∀ (v : Value) (vs : List Value),
      (Callee.resolve v vs).map (fun ca => (ca.1.mapBody (strip true), ca.2.map (strip false))) =
        Callee.resolve (v.strip false) (vs.map (strip false)) := fun v vs =>
    (Callee.resolve_relabels relabels_strip v vs).symm
  have hr : Twins (fun ca => (ca.1.mapBody (strip true), ca.2.map (strip false)))
      (ofHalt (Callee.resolve fn args)) (ofHalt (Callee.resolve fn' args')) := by
    apply twins_ofHalt
    rw [hresolve, hresolve, hfn, hargs]
  refine twins_bind hr fun ca cb h => ?_
  obtain ⟨hc, hvs⟩ := Prod.mk.inj h
  exact twins_call hev hc (map_strip_true hvs) fun _ => hvs

private theorem twins_applyWith_begin (hev : TwinForms ev)
    (h : forms.map (strip true) = forms'.map (strip true)) :
    Twins (strip false) (applyWith ev (.native .begin) forms)
      (applyWith ev (.native .begin) forms') := by
  rw [applyWith, applyWith, Callee.resolve_begin, Callee.resolve_begin]
  exact twins_call hev rfl h fun hb => (hb rfl).elim

private theorem parameterNames_eq (h : forms.map (strip true) = forms'.map (strip true)) :
    parameterNames forms = parameterNames forms' := by
  have hn : ∀ vs : List Value,
      parameterNames ((vs.map (strip true)).map anonymous) = parameterNames vs := by
    intro vs
    have hm : (vs.map (strip true)).map anonymous = vs.map anonymous := by
      rw [List.map_map]
      exact List.map_congr_left fun v _ => anonymous_strip true v
    rw [hm]
    exact parameterNames_rename vs
  rw [← hn forms, h, hn forms']

private theorem defineForm_of_target {target : Value} {body : List Value}
    (hs : target.isSymbol = false) (hl : target.isList = false) :
    defineForm ev (target :: body) = fail .defineTarget := by
  cases target with
  | symbol => cases hs
  | list => cases hl
  | _ => rfl

private theorem defineForm_of_head {i : Identity} {head : Value} {params body : List Value}
    (hs : head.isSymbol = false) :
    defineForm ev (.list i (head :: params) :: body) = fail .defineTarget := by
  cases head with
  | symbol => cases hs
  | _ => rfl

private theorem twins_bindValue (x : String) {v w : Value} (h : v.strip false = w.strip false) :
    Twins (strip false)
      (do
        report (.definedVariable x)
        define x v
        pure .nil)
      (do
        report (.definedVariable x)
        define x w
        pure .nil) :=
  twins_bind (twins_report _) fun _ _ _ => twins_bind (twins_define x h) fun _ _ _ => twins_pure rfl

private theorem twins_defineVariable (hev : TwinForms ev) {i j : Identity} (x : String)
    (h : operands.map (strip true) = operands'.map (strip true)) :
    Twins (strip false) (defineForm ev (.symbol i x :: operands))
      (defineForm ev (.symbol j x :: operands')) := by
  rcases operands with _ | ⟨f, _ | ⟨g, rest⟩⟩
  · obtain rfl := eq_nil_of_map_eq h
    exact twins_bindValue x rfl
  · obtain ⟨f', rest', rfl, hf, h⟩ := exists_cons_of_map_eq h
    obtain rfl := eq_nil_of_map_eq h
    exact twins_bind (hev f f' hf) fun v w hv => twins_bindValue x hv
  · obtain ⟨f', rest', rfl, hf, h⟩ := exists_cons_of_map_eq h
    obtain ⟨g', rest', rfl, hg, h⟩ := exists_cons_of_map_eq h
    exact twins_fail _

private theorem twins_defineFunction {i j k l : Identity} (x : String)
    (hp : forms.map (strip true) = forms'.map (strip true))
    (h : operands.map (strip true) = operands'.map (strip true)) :
    Twins (strip false) (defineForm ev (.list i (.symbol k x :: forms) :: operands))
      (defineForm ev (.list j (.symbol l x :: forms') :: operands')) := by
  simp only [defineForm, parameterNames_eq hp]
  refine twins_bind (f := id) (twins_ofHalt rfl) fun names names' hn => ?_
  obtain rfl : names = names' := hn
  refine twins_bind (twins_report _) fun _ _ _ => ?_
  refine twins_bind twins_newIdentity fun fresh fresh' hfresh => ?_
  obtain rfl : fresh = fresh' := hfresh
  have hl : (Value.lambda fresh x names operands).strip false =
      (Value.lambda fresh x names operands').strip false := by
    rw [strip_lambda, strip_lambda, h]
  exact twins_bind (twins_define x hl) fun _ _ _ => twins_pure rfl

private theorem twins_defineForm (hev : TwinForms ev)
    (h : operands.map (strip true) = operands'.map (strip true)) :
    Twins (strip false) (defineForm ev operands) (defineForm ev operands') := by
  cases operands with
  | nil =>
    obtain rfl := eq_nil_of_map_eq h
    exact twins_fail _
  | cons target body =>
    obtain ⟨target', body', rfl, ht, hb⟩ := exists_cons_of_map_eq h
    cases target with
    | symbol i x =>
      obtain ⟨j, rfl⟩ := eq_symbol_of_strip_eq ht
      exact twins_defineVariable hev x hb
    | list i items =>
      obtain ⟨j, items', rfl, hi⟩ := eq_list_of_strip_eq ht
      cases items with
      | nil =>
        obtain rfl := eq_nil_of_map_eq hi
        exact twins_fail _
      | cons head params =>
        obtain ⟨head', params', rfl, hh, hp⟩ := exists_cons_of_map_eq hi
        cases hs : head.isSymbol with
        | true =>
          cases head with
          | symbol k x =>
            obtain ⟨l, rfl⟩ := eq_symbol_of_strip_eq hh
            exact twins_defineFunction x hp hb
          | _ => cases hs
        | false =>
          have hs' : head'.isSymbol = false :=
            (apply_eq_of_strip_eq (fun _ => isSymbol_rename) hh).symm.trans hs
          rw [defineForm_of_head hs, defineForm_of_head hs']
          exact twins_fail _
    | _ =>
      have hs : target'.isSymbol = false :=
        (apply_eq_of_strip_eq (fun _ => isSymbol_rename) ht).symm
      have hl : target'.isList = false :=
        (apply_eq_of_strip_eq (fun _ => isList_rename) ht).symm
      rw [defineForm_of_target rfl rfl, defineForm_of_target hs hl]
      exact twins_fail _

private theorem twins_choiceForm (hev : TwinForms ev)
    (h : operands.map (strip true) = operands'.map (strip true)) :
    Twins (strip false) (choiceForm ev operands) (choiceForm ev operands') := by
  rcases operands with _ | ⟨c, _ | ⟨f, alternatives⟩⟩
  · obtain rfl := eq_nil_of_map_eq h
    exact twins_fail _
  · obtain ⟨c', rest', rfl, hc, h⟩ := exists_cons_of_map_eq h
    obtain rfl := eq_nil_of_map_eq h
    exact twins_fail _
  · obtain ⟨c', rest', rfl, hc, h⟩ := exists_cons_of_map_eq h
    obtain ⟨f', alternatives', rfl, hf, h⟩ := exists_cons_of_map_eq h
    refine twins_bind (hev c c' hc) fun v w hv => ?_
    cases v with
    | bool b =>
      obtain rfl := eq_bool_of_strip_eq hv
      cases b with
      | true => exact hev f f' hf
      | false =>
        rcases alternatives with _ | ⟨g, _ | ⟨k, rest⟩⟩
        · obtain rfl := eq_nil_of_map_eq h
          exact twins_pure rfl
        · obtain ⟨g', rest', rfl, hg, h⟩ := exists_cons_of_map_eq h
          obtain rfl := eq_nil_of_map_eq h
          exact hev g g' hg
        · obtain ⟨g', rest', rfl, hg, h⟩ := exists_cons_of_map_eq h
          obtain ⟨k', rest', rfl, hk, h⟩ := exists_cons_of_map_eq h
          exact twins_fail _
    | _ =>
      cases w with
      | bool b => cases eq_bool_of_strip_eq hv.symm
      | _ => exact twins_fail _

private theorem twins_callForm (hev : TwinForms ev) {head head' : Value}
    (hh : head.strip true = head'.strip true)
    (h : operands.map (strip true) = operands'.map (strip true)) :
    Twins (strip false) (callForm ev head operands) (callForm ev head' operands') := by
  refine twins_bind (hev head head' hh) fun fn fn' hfn => ?_
  have hp : fn.isProcedure = fn'.isProcedure :=
    apply_eq_of_strip_eq (fun _ => isProcedure_rename) hfn
  have ht : fn.takesForms = fn'.takesForms :=
    apply_eq_of_strip_eq (fun _ => takesForms_rename) hfn
  rw [hp]
  split
  · unfold arguments
    rw [ht]
    split
    · next hb =>
      obtain rfl := Discipline.Scoping.eq_begin_of_takesForms hb
      obtain rfl := Discipline.Scoping.eq_begin_of_takesForms (ht.trans hb)
      simp only [pure_bind]
      exact twins_applyWith_begin hev h
    · exact twins_bind (twins_each hev h) fun vs ws hvs => twins_applyWith hev hfn hvs
  · have hd : head.display? = head'.display? := display?_eq_of_equal (equal_of_strip_eq hh)
    rw [hd]
    refine twins_bind (f := id) (twins_ofHalt rfl) fun s t hs => ?_
    obtain rfl : s = t := hs
    exact twins_fail _

private theorem step_of_isSelfEvaluating {v : Value} (hv : v.isSelfEvaluating) :
    step ev v = pure v := by
  cases v with
  | symbol | list | pair => cases hv
  | _ => rfl

private theorem isSelfEvaluating_anonymous (v : Value) :
    v.anonymous.isSelfEvaluating = v.isSelfEvaluating := by
  cases v <;> rfl

/-- One step takes one course for all copies of a form if evaluations do. -/
theorem twinForms_step (hev : TwinForms ev) : TwinForms (step ev) := by
  intro form form' h
  cases form with
  | symbol i x =>
    obtain ⟨j, rfl⟩ := eq_symbol_of_strip_eq h
    exact twins_lookup x
  | list i items =>
    obtain ⟨j, items', rfl, hi⟩ := eq_list_of_strip_eq h
    cases items with
    | nil =>
      cases items' with
      | nil => exact twins_fail _
      | cons => cases hi
    | cons head operands =>
      cases items' with
      | nil => cases hi
      | cons head' operands' =>
        obtain ⟨hh, ho⟩ := List.cons.inj hi
        have hs : Special.ofHead? head = Special.ofHead? head' :=
          apply_eq_of_strip_eq ofHead?_rename hh
        rw [step, step, hs]
        split
        · exact twins_defineForm hev ho
        · exact twins_choiceForm hev ho
        · exact twins_callForm hev hh ho
  | pair i a d =>
    obtain ⟨j, b, e, rfl⟩ := eq_pair_of_strip_eq h
    have hd : (Value.pair i a d).display? = (Value.pair j b e).display? :=
      display?_eq_of_equal (equal_of_strip_eq h)
    rw [step, step, hd]
    refine twins_bind (f := id) (twins_ofHalt rfl) fun s t hs => ?_
    obtain rfl : s = t := hs
    exact twins_fail _
  | _ =>
    have hv' : form'.isSelfEvaluating :=
      (apply_eq_of_strip_eq isSelfEvaluating_anonymous h).symm
    rw [step_of_isSelfEvaluating rfl, step_of_isSelfEvaluating hv']
    apply twins_pure
    rw [← strip_true_of_isSelfEvaluating rfl, h, strip_true_of_isSelfEvaluating hv']

/-- Evaluation takes one course for all copies of a form, under every bound. -/
theorem twinForms_evaluate (depth : Nat) : TwinForms (evaluate depth) := by
  induction depth with
  | zero => exact fun _ _ _ => twins_throw .nesting
  | succ depth ih => exact twinForms_step ih

end Forms

/-! ### Lambdas -/

private theorem forall₂_of_map_eq {δ ε : Type} {h : δ → ε} {as bs : List δ}
    (he : as.map h = bs.map h) : List.Forall₂ (fun a b => h a = h b) as bs := by
  rw [← List.forall₂_eq_eq_eq, List.forall₂_map_left_iff, List.forall₂_map_right_iff] at he
  exact he

/-- Environments that differ in the identities of syntax alone bind the same names to equal
values. -/
theorem equal_of_map_strip_eq {e e' : Environment}
    (h : e.map (strip false) = e'.map (strip false)) : e.Equal e' := by
  have hframes : e.frames.map (Frame.map (strip false)) = e'.frames.map (Frame.map (strip false)) :=
    congrArg Environment.frames h
  refine (forall₂_of_map_eq hframes).imp fun f g hfg => ?_
  refine (forall₂_of_map_eq (Frame.mk.inj hfg)).imp fun b c hbc => ?_
  obtain ⟨hname, hv⟩ := Prod.mk.inj hbc
  exact ⟨hname, equal_of_strip_eq hv⟩

theorem Twins.sameEnd {x y : Eval Value} (h : Twins (strip false) x y) (m : Machine) :
    SameEnd (x.run m) (y.run m) := by
  obtain ⟨hr, hm⟩ := h m m rfl
  obtain ⟨he, _, hv⟩ := strip_eq_iff.mp hm
  refine ⟨?_, equal_of_map_strip_eq he, hv⟩
  generalize (x.run m).1 = r at hr ⊢
  generalize (y.run m).1 = s at hr ⊢
  cases r with
  | error e =>
    cases s with
    | error e' =>
      cases hr
      exact .halt e
    | ok w => cases hr
  | ok v =>
    cases s with
    | error e' => cases hr
    | ok w => exact .value (equal_of_strip_eq (Except.ok.inj hr))

/-- A lambda with forms of a text behaves as every lambda does that equals it. -/
theorem sameEnd_of_equal {i : Identity} {name : String} {params : List String} {body : List Value}
    {g : Value} (hbody : ∀ f ∈ body, f.IsSource) (h : (Value.lambda i name params body).equal g)
    (depth : Nat) (args : List Value) (m : Machine) :
    SameEnd ((apply depth (.lambda i name params body) args).run m)
      ((apply depth g args).run m) := by
  have he := equal_iff.mp h
  cases g with
  | lambda j name' params' body' =>
    rw [anonymous, anonymous, rename_lambda, rename_lambda] at he
    obtain ⟨_, rfl, rfl, hb⟩ := lambda.inj he
    have hs := map_strip_eq_of_isSource hbody hb
    have hcall : ∀ k forms, apply depth (.lambda k name params forms) args =
        call (evaluate depth) (.lambda name params forms) args := by
      intro k forms
      rw [apply, applyWith, Callee.resolve]
      rfl
    rw [hcall, hcall]
    refine Twins.sameEnd (twins_call (twinForms_evaluate depth) ?_ rfl fun _ => rfl) m
    exact congrArg (Callee.lambda name params) hs
  | _ => simp [anonymous, rename] at he

end Eval

end DynamicLisp
