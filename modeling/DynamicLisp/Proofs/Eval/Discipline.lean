import DynamicLisp.Eval.Basic
import DynamicLisp.Proofs.Eval.Growth
import DynamicLisp.Proofs.Eval.Yield

/-! Disciplines of evaluation. A discipline says which names, values and forms a program may use and
which names a form may define; a scoping says which environments cannot be told apart under it.
Main statement: evaluation in two environments that are alike ends alike, whatever the end is. -/
namespace DynamicLisp

/-- Whether a value, taken as a form, evaluates to itself. -/
def Value.isSelfEvaluating : Value → Bool
  | .symbol .. | .list .. | .pair .. => false
  | _ => true

/-- Only symbols announce a special form. -/
theorem Value.isSymbol_of_ofHead? {head : Value} {s : Eval.Special}
    (h : Eval.Special.ofHead? head = some s) : head.isSymbol := by
  cases head with
  | symbol i x => rfl
  | _ => cases h

/-- What a program may use: names, values and forms; a form `defines` the names that it may define
in the scope of its evaluation. Whatever is computed from permitted things is permitted again. -/
structure Discipline where
  name : String → Prop
  data : Value → Prop
  form : Value → Prop
  defines : Value → String → Prop
  bool (b : Bool) : data (.bool b)
  int {n : Int} : Value.inRange n → data (.int n)
  nil : data .nil
  list {i : Identity} {vs : List Value} : data (.list i vs) ↔ ∀ v ∈ vs, data v
  pair {i : Identity} {a d : Value} : data (.pair i a d) ↔ data a ∧ data d
  lambda {i : Identity} {f : String} {params : List String} {body : List Value} :
    data (.lambda i f params body) ↔ (∀ x ∈ params, name x) ∧ ∀ g ∈ body, form g
  form_of_data {v : Value} : data v → form v
  symbol {i : Identity} {x : String} : form (.symbol i x) → name x
  items {i : Identity} {fs : List Value} : form (.list i fs) → ∀ f ∈ fs, form f
  atom {v : Value} : form v → v.isSelfEvaluating → data v
  defines_variable {i j : Identity} {head : Value} {x : String} {body : List Value} :
    Eval.Special.ofHead? head = some .define → defines (.list i (head :: .symbol j x :: body)) x
  defines_value {i j : Identity} {head f : Value} {x y : String} :
    Eval.Special.ofHead? head = some .define → defines f y →
      defines (.list i [head, .symbol j x, f]) y
  defines_function {i j k : Identity} {head : Value} {x : String} {params body : List Value} :
    Eval.Special.ofHead? head = some .define →
      defines (.list i (head :: .list j (.symbol k x :: params) :: body)) x
  defines_item {i : Identity} {head f : Value} {operands : List Value} {x : String} :
    Eval.Special.ofHead? head ≠ some .define → f ∈ head :: operands → defines f x →
      defines (.list i (head :: operands)) x
  defines_of_data {v f : Value} {x : String} : data v → defines v x → defines f x

/-- Environments that are alike for all programs under a discipline. -/
structure Discipline.Scoping (D : Discipline) where
  alike : Environment → Environment → Prop
  lookup {e e' : Environment} {x : String} : alike e e' → D.name x →
    e.lookup? x = e'.lookup? x ∧ ∀ v, e.lookup? x = some v → D.data v
  define {e e' : Environment} {x : String} {v : Value} : alike e e' → D.name x → D.data v →
    alike (e.define x v) (e'.define x v)
  push {e e' : Environment} {params : List String} {args : List Value} : alike e e' →
    (∀ x ∈ params, D.name x) → (∀ a ∈ args, D.data a) →
    alike (e.push (.ofParameters params args)) (e'.push (.ofParameters params args))

namespace Discipline

/-! ### Values and callees -/

section Values
variable (D : Discipline)

/-- Primitives make permitted values of permitted operands. -/
theorem data_of_compute {p : Primitive} {fresh : Identity} {args : List Value} {v : Value}
    (hargs : ∀ a ∈ args, D.data a) (h : p.compute fresh args = .ok v) : D.data v :=
  Primitive.forall_of_compute D.bool (fun _ => D.int) D.list D.pair hargs h

/-- A callee that may be called: a lambda with permitted parameters and body, or any other. -/
def Callable : Callee → Prop
  | .lambda _ params body => (∀ x ∈ params, D.name x) ∧ ∀ f ∈ body, D.form f
  | .primitive _ | .begin => True

/-- Handing operands on through `apply` gives a permitted callee permitted arguments. -/
theorem callable_of_resolve {fn : Value} {args vs : List Value} {callee : Callee}
    (hf : D.data fn) (hargs : ∀ a ∈ args, D.data a)
    (h : Callee.resolve fn args = .ok (callee, vs)) : D.Callable callee ∧ ∀ v ∈ vs, D.data v := by
  obtain ⟨⟨g, hg, hc⟩, hvs, _⟩ := Callee.of_resolve (fun _ _ => D.list.mp) hf hargs h
  refine ⟨?_, hvs⟩
  cases callee with
  | lambda name params body =>
    cases g with
    | lambda i name' params' body' =>
      cases hc
      exact D.lambda.mp hg
    | native f => cases f <;> cases hc
    | _ => cases hc
  | primitive p => trivial
  | begin => trivial

end Values

/-! ### Computations in environments that are alike -/

namespace Scoping
variable {D : Discipline} (S : D.Scoping)

/-- Machines that programs cannot tell apart; the events so far may differ. -/
structure Alike (m n : Machine) : Prop where
  fresh : m.fresh = n.fresh
  env : S.alike m.env n.env

/-- How two runs end that start from `m` and `n`: with one outcome, in machines alike again, after
definitions of names with `p` alone, and with a value as `Q` says unless they halt. -/
structure Agree {α : Type} (p : String → Prop) (Q : α → Prop) (m n : Machine)
    (r s : Except Halt α × Machine) : Prop where
  outcome : r.1 = s.1
  alike : S.Alike r.2 s.2
  left : m.env.Grows p r.2.env
  right : n.env.Grows p s.2.env
  value : ∀ a, r.1 = .ok a → Q a

/-- A computation that runs alike from machines that are alike. -/
def Respects {α : Type} (p : String → Prop) (Q : α → Prop) (x : Eval α) : Prop :=
  ∀ m n, S.Alike m n → S.Agree p Q m n (x.run m) (x.run n)

variable {S} {α β : Type} {p q : String → Prop} {Q : α → Prop} {R : β → Prop}

theorem Respects.mono {x : Eval α} (hx : S.Respects p Q x) (hpq : ∀ name, p name → q name) :
    S.Respects q Q x := by
  intro m n h
  have hr := hx m n h
  exact ⟨hr.outcome, hr.alike, hr.left.mono hpq, hr.right.mono hpq, hr.value⟩

theorem respects_pure {a : α} (ha : Q a) : S.Respects p Q (pure a) := by
  intro m n h
  refine ⟨rfl, h, .refl p _, .refl p _, ?_⟩
  intro b hb
  cases hb
  exact ha

theorem respects_throw (e : Halt) : S.Respects p Q (throw e) := by
  intro m n h
  exact ⟨rfl, h, .refl p _, .refl p _, fun a ha => nomatch ha⟩

theorem respects_fail (f : Fault) : S.Respects p Q (Eval.fail f) :=
  respects_throw (.fault f)

theorem respects_ofHalt {r : Except Halt α} (hr : ∀ a, r = .ok a → Q a) :
    S.Respects p Q (Eval.ofHalt r) := by
  cases r with
  | error e => exact respects_throw e
  | ok a => exact respects_pure (hr a rfl)

theorem respects_bind {x : Eval α} {f : α → Eval β} (hx : S.Respects p Q x)
    (hf : ∀ a, Q a → S.Respects p R (f a)) : S.Respects p R (x >>= f) := by
  intro m n h
  have hr := hx m n h
  rw [Eval.run_bind, Eval.run_bind]
  generalize x.run m = rm at hr ⊢
  generalize x.run n = rn at hr ⊢
  obtain ⟨r, m'⟩ := rm
  obtain ⟨s, n'⟩ := rn
  have he : r = s := hr.outcome
  subst he
  cases r with
  | error e => exact ⟨rfl, hr.alike, hr.left, hr.right, fun b hb => nomatch hb⟩
  | ok a =>
    have hs := hf a (hr.value a rfl) m' n' hr.alike
    exact ⟨hs.outcome, hs.alike, hr.left.trans hs.left, hr.right.trans hs.right, hs.value⟩

theorem respects_newIdentity : S.Respects p (fun _ => True) Eval.newIdentity := by
  intro m n h
  rw [Eval.run_newIdentity, Eval.run_newIdentity, h.fresh]
  exact ⟨rfl, ⟨rfl, h.env⟩, .refl p _, .refl p _, fun _ _ => trivial⟩

theorem respects_report (e : Event) : S.Respects p (fun _ => True) (Eval.report e) := by
  intro m n h
  exact ⟨rfl, ⟨h.fresh, h.env⟩, .refl p _, .refl p _, fun _ _ => trivial⟩

theorem respects_lookup {x : String} (hx : D.name x) : S.Respects p D.data (Eval.lookup x) := by
  intro m n h
  obtain ⟨he, hv⟩ := S.lookup h.env hx
  rw [Eval.run_lookup, Eval.run_lookup, ← he]
  refine ⟨rfl, h, .refl p _, .refl p _, ?_⟩
  intro v hr
  cases hl : m.env.lookup? x with
  | none => simp [hl] at hr
  | some w =>
    simp only [hl, Option.elim_some, Except.ok.injEq] at hr
    exact hr ▸ hv w hl

theorem respects_define {x : String} {v : Value} (hp : p x) (hx : D.name x) (hv : D.data v) :
    S.Respects p (fun _ => True) (Eval.define x v) := by
  intro m n h
  rw [Eval.run_define, Eval.run_define]
  exact ⟨rfl, ⟨h.fresh, S.define h.env hx hv⟩, .define _ v hp, .define _ v hp, fun _ _ => trivial⟩

/-- A scope is closed as it was opened, so nothing that its body defines is left. -/
theorem respects_within {params : List String} {args : List Value} {body : Eval α}
    (hparams : ∀ x ∈ params, D.name x) (hargs : ∀ a ∈ args, D.data a) (hb : S.Respects q Q body) :
    S.Respects p Q (Eval.within (.ofParameters params args) body) := by
  intro m n h
  -- what the body defines is in the frame that the scope opened, so closing it takes this away
  have hr := hb { m with env := m.env.push (.ofParameters params args) }
    { n with env := n.env.push (.ofParameters params args) } ⟨h.fresh, S.push h.env hparams hargs⟩
  rw [Eval.run_within, Eval.run_within, hr.left.pop, hr.right.pop]
  exact ⟨hr.outcome, ⟨hr.alike.fresh, h.env⟩, .refl p _, .refl p _, hr.value⟩

end Scoping

end Discipline
end DynamicLisp
