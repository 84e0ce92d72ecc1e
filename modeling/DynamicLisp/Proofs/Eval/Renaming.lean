import DynamicLisp.Eval.Basic
import DynamicLisp.Proofs.Environment.Renaming
import DynamicLisp.Proofs.Eval.Holding
import DynamicLisp.Proofs.Eval.Relabelling

/-! Renaming in evaluations. Main statement: evaluation of a renamed form in a renamed environment
takes the course of the original one, with identities renamed. So programs tell identities apart
and see nothing else of them, and those that a run comes to are the given ones and fresh ones. -/
namespace DynamicLisp

variable {r : Identity → Identity}

/-! ### Primitives and callees -/

/-- A primitive makes of renamed operands the renamed result, and refuses them for the same
reason. -/
theorem Primitive.compute_rename (hr : Function.Injective r) (p : Primitive) (fresh : Identity)
    (args : List Value) :
    p.compute (r fresh) (args.map (Value.rename r)) =
      (p.compute fresh args).map (Value.rename r) :=
  compute_relabels (Value.relabels_rename r) hr p fresh args

namespace Callee

/-- The callee with all identities in its body renamed. -/
def rename (r : Identity → Identity) : Callee → Callee
  | lambda name params body => lambda name params (body.map (Value.rename r))
  | c => c

theorem resolve_rename (fn : Value) (args : List Value) :
    resolve (fn.rename r) (args.map (Value.rename r)) =
      (resolve fn args).map fun ca => (ca.1.rename r, ca.2.map (Value.rename r)) :=
  resolve_relabels (Value.relabels_rename r) fn args

end Callee

/-! ### Computations -/

/-- The machine with all values bound in it renamed; `a` is the identity that no value has yet. -/
def Machine.rename (r : Identity → Identity) (a : Identity) (m : Machine) : Machine :=
  ⟨m.env.rename r, a, m.events⟩

namespace Eval
variable {α β : Type} {f : α → α} {g : β → β}

/-- `y` takes the course of `x` with identities renamed; `f` renames what they compute. The fresh
identities that `x` draws have to be named, in order, as those that `y` draws. -/
structure Renames (r : Identity → Identity) (f : α → α) (x y : Eval α) : Prop where
  grows (m : Machine) : m.fresh ≤ (x.run m).2.fresh
  run (m : Machine) (a : Identity) :
    (∀ i, m.fresh ≤ i → i < (x.run m).2.fresh → r i + m.fresh = a + i) →
      y.run (m.rename r a) = ((x.run m).1.map f,
        (x.run m).2.rename r (a + ((x.run m).2.fresh - m.fresh)))

theorem renames_pure (a : α) : Renames r f (pure a) (pure (f a)) where
  grows _ := le_rfl
  run m a _ := by simp [Except.map]

theorem renames_throw (e : Halt) : Renames r f (throw e) (throw e) where
  grows _ := le_rfl
  run m a _ := by simp [Except.map]

theorem renames_fail (e : Fault) : Renames r f (fail e) (fail e) :=
  renames_throw (.fault e)

theorem renames_ofHalt {x : Except Halt α} : Renames r f (ofHalt x) (ofHalt (x.map f)) := by
  cases x with
  | error e => exact renames_throw e
  | ok a => exact renames_pure a

/-- What contains no identities stays as it is. -/
theorem renames_ofHalt_id {x : Except Halt α} : Renames r id (ofHalt x) (ofHalt x) := by
  cases x with
  | error e => exact renames_throw e
  | ok a => exact renames_pure a

private theorem offset_step {a i j k l : Nat} (h : k ≤ l) (he : j + k = a + i) :
    j + l = a + (l - k) + i := by
  omega

private theorem offset_trans {a k l n : Nat} (h : k ≤ l) (h' : l ≤ n) :
    a + (l - k) + (n - l) = a + (n - k) := by
  omega

theorem renames_bind {x y : Eval α} {k l : α → Eval β} (h : Renames r f x y)
    (hk : ∀ a, Renames r g (k a) (l (f a))) : Renames r g (x >>= k) (y >>= l) where
  grows m := by
    rw [run_bind]
    have hm := h.grows m
    generalize x.run m = rx at hm ⊢
    obtain ⟨rx, m₁⟩ := rx
    cases rx with
    | error e => exact hm
    | ok v => exact hm.trans ((hk v).grows m₁)
  run m a := by
    rw [run_bind, run_bind]
    have hm := h.grows m
    have hrun := h.run m a
    generalize x.run m = rx at hm hrun ⊢
    obtain ⟨rx, m₁⟩ := rx
    cases rx with
    | error e =>
      intro hr
      rw [hrun hr]
      rfl
    | ok v =>
      intro hr
      -- what follows draws its identities after those of `x`, on both sides
      have hm₁ := (hk v).grows m₁
      rw [hrun fun i hi hlt => hr i hi (lt_of_lt_of_le hlt hm₁)]
      have hnext := (hk v).run m₁ (a + (m₁.fresh - m.fresh)) fun i hi hlt =>
        offset_step hm (hr i (hm.trans hi) hlt)
      rw [offset_trans hm hm₁] at hnext
      exact hnext

theorem renames_newIdentity : Renames r r newIdentity newIdentity where
  grows m := Nat.le_succ m.fresh
  run m a hr := by
    have ha : r m.fresh = a := Nat.add_right_cancel (hr m.fresh le_rfl (Nat.lt_succ_self _))
    simp [Except.map, Machine.rename, ha]

theorem renames_report (e : Event) : Renames r id (report e) (report e) where
  grows _ := le_rfl
  run m a _ := by simp [Except.map, Machine.rename]

theorem renames_lookup (name : String) :
    Renames r (Value.rename r) (lookup name) (lookup name) where
  grows m := by rw [run_lookup]
  run m a _ := by
    rw [run_lookup, run_lookup, Machine.rename, Environment.lookup?_rename]
    cases m.env.lookup? name <;> simp [Except.map, Machine.rename]

theorem renames_define (name : String) (v : Value) :
    Renames r id (define name v) (define name (v.rename r)) where
  grows _ := le_rfl
  run m a _ := by simp [Except.map, Machine.rename, Environment.define_rename]

theorem renames_within {s : Frame} {x y : Eval α} (h : Renames r f x y) :
    Renames r f (within s x) (within (s.rename r) y) where
  grows m := h.grows { m with env := m.env.push s }
  run m a hr := by
    rw [run_within, run_within]
    have hrun := h.run { m with env := m.env.push s } a hr
    have he : ({ m.rename r a with env := (m.rename r a).env.push (s.rename r) } : Machine) =
        ({ m with env := m.env.push s } : Machine).rename r a := rfl
    rw [he, hrun]
    simp [Machine.rename, Environment.pop_rename]

/-! ### Evaluations -/

section Forms
variable {ev : Value → Eval Value}

/-- An evaluation that takes one course for a form and for the renamed form. -/
def RenamesForms (r : Identity → Identity) (ev : Value → Eval Value) : Prop :=
  ∀ form, Renames r (Value.rename r) (ev form) (ev (form.rename r))

theorem renames_each (hev : RenamesForms r ev) (forms : List Value) :
    Renames r (List.map (Value.rename r)) (each ev forms)
      (each ev (forms.map (Value.rename r))) := by
  induction forms with
  | nil => exact renames_pure []
  | cons form forms ih =>
    exact renames_bind (hev form) fun v => renames_bind ih fun vs => renames_pure (v :: vs)

theorem renames_inOrder (hev : RenamesForms r ev) (last : Value) (forms : List Value) :
    Renames r (Value.rename r) (inOrder ev last forms)
      (inOrder ev (last.rename r) (forms.map (Value.rename r))) := by
  induction forms generalizing last with
  | nil => exact renames_pure last
  | cons form forms ih => exact renames_bind (hev form) fun v => ih v

theorem renames_call (hi : Function.Injective r) (hev : RenamesForms r ev) (callee : Callee)
    (args : List Value) :
    Renames r (Value.rename r) (call ev callee args)
      (call ev (callee.rename r) (args.map (Value.rename r))) := by
  cases callee with
  | lambda name params body =>
    simp only [call, Callee.rename, List.length_map]
    split
    · rw [Frame.ofParameters_rename]
      exact renames_within (renames_inOrder hev .nil body)
    · exact renames_fail _
  | primitive p =>
    refine renames_bind renames_newIdentity fun fresh => ?_
    rw [Primitive.compute_rename hi]
    exact renames_ofHalt
  | begin =>
    cases args with
    | nil => exact renames_fail _
    | cons form forms => exact renames_inOrder hev .nil (form :: forms)

theorem renames_applyWith (hi : Function.Injective r) (hev : RenamesForms r ev) (fn : Value)
    (args : List Value) :
    Renames r (Value.rename r) (applyWith ev fn args)
      (applyWith ev (fn.rename r) (args.map (Value.rename r))) := by
  unfold applyWith
  rw [Callee.resolve_rename]
  exact renames_bind renames_ofHalt fun ca => renames_call hi hev ca.1 ca.2

theorem parameterNames_of_not_symbol {param : Value} {params : List Value}
    (h : param.isSymbol = false) :
    parameterNames (param :: params) =
      param.inspect?.bind fun text => .error (.fault (.parameterNotSymbol text)) := by
  cases param with
  | symbol i x => cases h
  | _ => rfl

theorem parameterNames_rename (params : List Value) :
    parameterNames (params.map (Value.rename r)) = parameterNames params := by
  induction params with
  | nil => rfl
  | cons param params ih =>
    cases hs : param.isSymbol with
    | true =>
      cases param with
      | symbol i x => exact congrArg (Except.map (x :: ·)) ih
      | _ => cases hs
    | false =>
      rw [List.map_cons, parameterNames_of_not_symbol hs,
        parameterNames_of_not_symbol (Value.isSymbol_rename.trans hs), Value.inspect?_rename]

private theorem renames_defineForm (hev : RenamesForms r ev) (operands : List Value) :
    Renames r (Value.rename r) (defineForm ev operands)
      (defineForm ev (operands.map (Value.rename r))) := by
  cases operands with
  | nil => exact renames_fail _
  | cons target body =>
    cases target with
    | symbol j x =>
      rcases body with _ | ⟨form, _ | ⟨other, rest⟩⟩
      · refine renames_bind (renames_report _) fun _ => ?_
        exact renames_bind (renames_define x Value.nil) fun _ => renames_pure Value.nil
      · refine renames_bind (hev form) fun v => renames_bind (renames_report _) fun _ => ?_
        exact renames_bind (renames_define x v) fun _ => renames_pure Value.nil
      · exact renames_fail _
    | list j items =>
      rw [List.map_cons, Value.rename_list]
      cases items with
      | nil => exact renames_fail _
      | cons param params =>
        cases param with
        | symbol k x =>
          simp only [defineForm, List.map_cons, Value.rename, parameterNames_rename]
          refine renames_bind renames_ofHalt_id fun names => ?_
          refine renames_bind (renames_report _) fun _ => ?_
          refine renames_bind renames_newIdentity fun fresh => ?_
          have hd := renames_define (r := r) x (.lambda fresh x names body)
          rw [Value.rename_lambda] at hd
          exact renames_bind hd fun _ => renames_pure Value.nil
        | _ => exact renames_fail _
    | _ => exact renames_fail _

private theorem renames_choiceForm (hev : RenamesForms r ev) (operands : List Value) :
    Renames r (Value.rename r) (choiceForm ev operands)
      (choiceForm ev (operands.map (Value.rename r))) := by
  rcases operands with _ | ⟨c, _ | ⟨f, alternatives⟩⟩
  · exact renames_fail _
  · exact renames_fail _
  · refine renames_bind (hev c) fun v => ?_
    cases v with
    | bool b =>
      cases b with
      | true => exact hev f
      | false =>
        rcases alternatives with _ | ⟨g, _ | ⟨h, rest⟩⟩
        · exact renames_pure Value.nil
        · exact hev g
        · exact renames_fail _
    | _ => exact renames_fail _

private theorem renames_callForm (hi : Function.Injective r) (hev : RenamesForms r ev)
    (head : Value) (operands : List Value) :
    Renames r (Value.rename r) (callForm ev head operands)
      (callForm ev (head.rename r) (operands.map (Value.rename r))) := by
  refine renames_bind (hev head) fun fn => ?_
  rw [Value.isProcedure_rename]
  split
  · unfold arguments
    rw [Value.takesForms_rename]
    split
    · exact renames_bind (renames_pure operands) fun vs => renames_applyWith hi hev fn vs
    · exact renames_bind (renames_each hev operands) fun vs => renames_applyWith hi hev fn vs
  · rw [Value.display?_rename]
    exact renames_bind renames_ofHalt_id fun text => renames_fail _

theorem ofHead?_rename (head : Value) :
    Special.ofHead? (head.rename r) = Special.ofHead? head := by
  cases head <;> rfl

/-- One step takes one course for a form and for the renamed form if evaluations do. -/
theorem renamesForms_step (hi : Function.Injective r) (hev : RenamesForms r ev) :
    RenamesForms r (step ev) := by
  intro form
  cases form with
  | symbol i x => exact renames_lookup x
  | list i items =>
    rw [Value.rename_list]
    cases items with
    | nil => exact renames_fail _
    | cons head operands =>
      rw [List.map_cons, step, step, ofHead?_rename]
      split
      · exact renames_defineForm hev operands
      · exact renames_choiceForm hev operands
      · exact renames_callForm hi hev head operands
  | pair i a d =>
    have hd : ((Value.pair i a d).rename r).display? = (Value.pair i a d).display? :=
      Value.display?_rename
    rw [Value.rename_pair] at hd ⊢
    rw [step, step, hd]
    exact renames_bind renames_ofHalt_id fun text => renames_fail _
  | lambda i x params body => exact renames_pure (Value.lambda i x params body)
  | _ => exact renames_pure _

/-- Evaluation takes one course for a form and for the renamed form, under every bound. -/
theorem renamesForms_evaluate (hi : Function.Injective r) (depth : Nat) :
    RenamesForms r (evaluate depth) := by
  induction depth with
  | zero => exact fun _ => renames_throw .nesting
  | succ depth ih => exact renamesForms_step hi ih

end Forms

/-! ### Fresh identities -/

/-- Leaves out the identity `k`: what is below stays, and all others move up. -/
def shift (k i : Nat) : Nat :=
  if i < k then i else i + 1

variable {i k : Nat}

theorem shift_injective : Function.Injective (shift k) := by
  intro i j h
  unfold shift at h
  split at h <;> split at h <;> omega

theorem shift_of_lt (h : i < k) : shift k i = i :=
  if_pos h

theorem shift_of_le (h : k ≤ i) : shift k i = i + 1 :=
  if_neg (Nat.not_lt.mpr h)

theorem lt_of_shift_eq (h : shift k i = i) : i < k := by
  by_contra hk
  rw [shift_of_le (Nat.not_lt.mp hk)] at h
  exact Nat.succ_ne_self i h

private theorem rename_frame_eq_self_iff {f : Frame} :
    f.rename r = f ↔ ∀ b ∈ f.entries, b.2.rename r = b.2 := by
  obtain ⟨bs⟩ := f
  rw [Frame.rename, Frame.mk.injEq, Value.map_eq_self_iff]
  exact forall₂_congr fun b _ => ⟨congrArg Prod.snd, fun h => congrArg (Prod.mk b.1) h⟩

/-- A renaming leaves an environment alone just when it does so with the values bound. -/
theorem rename_env_eq_self_iff {e : Environment} :
    e.rename r = e ↔ e.Holds fun v => v.rename r = v := by
  obtain ⟨inner, outer⟩ := e
  rw [Environment.rename, Environment.mk.injEq, Environment.Holds, Environment.frames,
    List.forall_mem_cons, rename_frame_eq_self_iff, Value.map_eq_self_iff]
  exact and_congr_right fun _ => forall₂_congr fun f _ => rename_frame_eq_self_iff

theorem rename_shift_eq {e : Environment} (h : e.Holds (Value.IsBelow i)) (hk : i ≤ k) :
    e.rename (shift k) = e :=
  rename_env_eq_self_iff.mpr fun f hf b hb =>
    (h f hf b hb).rename_eq fun _ hj => shift_of_lt (lt_of_lt_of_le hj hk)

theorem map_rename_shift_eq {vs : List Value} (h : ∀ v ∈ vs, v.IsBelow i) (hk : i ≤ k) :
    vs.map (Value.rename (shift k)) = vs :=
  Value.map_eq_self_iff.mpr fun v hv =>
    (h v hv).rename_eq fun _ hj => shift_of_lt (lt_of_lt_of_le hj hk)

section Settled
variable {x : Eval α} {f : (Identity → Identity) → α → α} {m : Machine}

/-- A run that no renaming of later identities touches ends with nothing that has the next one. -/
theorem Renames.settled (h : ∀ k, m.fresh ≤ k → Renames (shift k) (f (shift k)) x x)
    (hm : m.env.Holds (Value.IsBelow m.fresh)) :
    (x.run m).1.map (f (shift (x.run m).2.fresh)) = (x.run m).1 ∧
      (x.run m).2.env.Holds (Value.IsBelow (x.run m).2.fresh) := by
  -- the identity left out is the one that is next at the end, so that none drawn on the way moves
  have hle : m.fresh ≤ (x.run m).2.fresh := (h m.fresh le_rfl).grows m
  have hr := (h _ hle).run m m.fresh fun i _ hlt => by rw [shift_of_lt hlt, Nat.add_comm]
  have hself : m.rename (shift (x.run m).2.fresh) m.fresh = m := by
    rw [Machine.rename, rename_shift_eq hm hle]
  rw [hself] at hr
  have henv : (x.run m).2.env.rename (shift (x.run m).2.fresh) = (x.run m).2.env :=
    (congrArg (fun s => s.2.env) hr).symm
  refine ⟨(congrArg Prod.fst hr).symm, fun f hf b hb => ?_⟩
  exact Value.isBelow_of_rename_eq (rename_env_eq_self_iff.mp henv f hf b hb)
    fun i => lt_of_shift_eq

end Settled

/-- Identities stay below the one that no value has yet: evaluation finds the given ones and makes
others from there on. -/
theorem isBelow_of_each (depth : Nat) {forms : List Value} {m : Machine}
    (hforms : ∀ f ∈ forms, f.IsBelow m.fresh) (hm : m.env.Holds (Value.IsBelow m.fresh)) :
    ((each (evaluate depth) forms).run m).2.env.Holds
        (Value.IsBelow ((each (evaluate depth) forms).run m).2.fresh) ∧
      ∀ vs, ((each (evaluate depth) forms).run m).1 = .ok vs →
        ∀ v ∈ vs, v.IsBelow ((each (evaluate depth) forms).run m).2.fresh := by
  have hr : ∀ k, m.fresh ≤ k → Renames (shift k) (List.map (Value.rename (shift k)))
      (each (evaluate depth) forms) (each (evaluate depth) forms) := by
    intro k hk
    have h := renames_each (renamesForms_evaluate (shift_injective (k := k)) depth) forms
    rwa [map_rename_shift_eq hforms hk] at h
  obtain ⟨hv, he⟩ := Renames.settled (f := fun r => List.map (Value.rename r)) hr hm
  refine ⟨he, fun vs hvs v hm => ?_⟩
  rw [hvs] at hv
  exact Value.isBelow_of_rename_eq (Value.map_eq_self_iff.mp (Except.ok.inj hv) v hm)
    fun i => lt_of_shift_eq

end Eval

end DynamicLisp
