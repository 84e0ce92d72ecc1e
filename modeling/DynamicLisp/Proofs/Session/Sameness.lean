import Mathlib
import DynamicLisp.Proofs.Eval.Lists
import DynamicLisp.Proofs.Session.History

/-! Sameness in sessions. Main statement: over the whole life of a session, values that are the same
have equal contents; what is built anew is the same as nothing that was there before; and what is
put somewhere, in a binding, an argument, a pair or a list, comes back as the same value. -/
namespace DynamicLisp

namespace Primitive
variable {p : Primitive} {fresh : Identity} {args : List Value} {v : Value}

/-- The calls meant to build something: all of `list`, `cons` and `append`, and those of `cdr` that
take a list. -/
inductive Makes : Primitive → List Value → Prop where
  | list (args : List Value) : Makes .list args
  | cons (args : List Value) : Makes .cons args
  | append (args : List Value) : Makes .append args
  | cdr (i : Identity) (items : List Value) : Makes .cdr [.list i items]

/-- Those among them whose operands are as they should be. -/
inductive Suits : Primitive → List Value → Prop where
  | list (args : List Value) : Suits .list args
  | cons (a d : Value) : Suits .cons [a, d]
  | append {args : List Value} (h : ∀ a ∈ args, a.isList) : Suits .append args
  | cdr (i : Identity) (a : Value) (items : List Value) : Suits .cdr [.list i (a :: items)]

theorem identity?_of_makes (hm : Makes p args) (h : p.compute fresh args = .ok v) :
    v.identity? = some fresh := by
  cases hm with
  | list =>
    cases h
    rfl
  | cons =>
    obtain ⟨ab, _, rfl⟩ := map_eq_ok (mapError_eq_ok h)
    rfl
  | append =>
    obtain ⟨vs, _, rfl⟩ := map_eq_ok (mapError_eq_ok h)
    rfl
  | cdr i items =>
    cases items with
    | nil => cases h
    | cons a items =>
      cases h
      rfl

theorem compute_of_suits (h : Suits p args) (fresh : Identity) :
    ∃ v, p.compute fresh args = .ok v := by
  cases h with
  | list => exact ⟨_, rfl⟩
  | cons => exact ⟨_, rfl⟩
  | append h => exact ⟨_, append_of_isList h fresh⟩
  | cdr => exact ⟨_, rfl⟩

end Primitive

namespace Session
open Eval
variable {m n : Machine} {u v a : Value}

/-! ### Calls and what comes back -/

/-- A form, evaluated from `m` with evaluations nested up to `depth` in it, comes to call a
primitive with `args` at `n`. -/
def Uses (depth : Nat) (form : Value) (m : Machine) (p : Primitive) (args : List Value)
    (n : Machine) : Prop :=
  ∃ i head operands, form = .list i (head :: operands) ∧ Special.ofHead? head = none ∧
    Calls (evaluate depth) head operands m (.primitive p) args n

/-- A call of a primitive with `args` has given `v`. -/
def Gave (p : Primitive) (args : List Value) (v : Value) : Prop :=
  ∃ depth form m n, Uses depth form m p args n ∧ ((evaluate (depth + 1) form).run m).1 = .ok v

/-- The outcome is the value that was put in. -/
def GivesBack (a : Value) (r : Except Halt Value) : Prop :=
  ∃ w, r = .ok w ∧ a.same w

/-- Wherever a call of a primitive takes `u`, it gives back the value `a`. -/
def Fetches (p : Primitive) (u a : Value) : Prop :=
  ∀ depth form m n, Uses depth form m p [u] n →
    GivesBack a ((evaluate (depth + 1) form).run m).1

/-- A primitive is used where a form has it as its operator. -/
theorem uses_of_run {depth : Nat} {i : Identity} {head : Value} {operands args : List Value}
    {p : Primitive} {k : Machine} (hs : Special.ofHead? head = none)
    (hh : (evaluate depth head).run m = (.ok (.native (.primitive p)), k))
    (ha : (each (evaluate depth) operands).run k = (.ok args, n)) :
    Uses depth (.list i (head :: operands)) m p args n :=
  ⟨i, head, operands, rfl, hs, _, args, k, hh, rfl, ha, Callee.resolve_primitive p args⟩

theorem run_of_uses {depth : Nat} {form : Value} {p : Primitive} {args : List Value}
    (h : Uses depth form m p args n) :
    (evaluate (depth + 1) form).run m =
      (p.compute n.fresh args, { n with fresh := n.fresh + 1 }) := by
  obtain ⟨i, head, operands, rfl, hs, hc⟩ := h
  simp only [evaluate, step, hs]
  rw [run_callForm_of_calls hc, run_call_primitive]

theorem compute_of_gave {p : Primitive} {args : List Value} (h : Gave p args v) :
    ∃ fresh, p.compute fresh args = .ok v := by
  obtain ⟨depth, form, m, n, hu, hv⟩ := h
  rw [run_of_uses hu] at hv
  exact ⟨n.fresh, hv⟩

theorem givesBack_self (a : Value) : GivesBack a (.ok a) :=
  ⟨a, rfl, Value.same_equivalence.refl a⟩

theorem fetches_of_compute {p : Primitive} (h : ∀ fresh, p.compute fresh [u] = .ok a) :
    Fetches p u a := by
  intro depth form m n hu
  rw [run_of_uses hu, h]
  exact givesBack_self a

/-- A name is looked up as long as it is not bound anew. -/
theorem givesBack_lookup {p : String → Prop} {x : String} (hx : m.env.lookup? x = some a)
    (h : m.env.Grows p n.env) (hp : ¬ p x) (depth : Nat) (i : Identity) :
    GivesBack a ((evaluate (depth + 1) (.symbol i x)).run n).1 := by
  rw [evaluate, step, run_lookup, h.lookup?_eq hp, hx]
  exact givesBack_self a

section Forms
variable {depth : Nat} {i j k : Identity} {head : Value} {x : String} {params body : List Value}

private theorem parameterNames_of_symbols (h : ∀ p ∈ params, p.isSymbol) :
    ∃ names, parameterNames params = .ok names := by
  induction params with
  | nil => exact ⟨[], rfl⟩
  | cons param params ih =>
    obtain ⟨hp, hps⟩ := List.forall_mem_cons.mp h
    obtain ⟨names, hn⟩ := ih hps
    cases param with
    | symbol i x =>
      refine ⟨x :: names, ?_⟩
      rw [parameterNames, hn]
      rfl
    | _ => cases hp

/-- A function definition binds its name to a lambda with the next identity. -/
theorem run_function (hs : Special.ofHead? head = some .define) (hp : ∀ p ∈ params, p.isSymbol)
    (m : Machine) : ∃ names events,
      (evaluate (depth + 1) (.list i (head :: .list j (.symbol k x :: params) :: body))).run m =
        (.ok .nil, ⟨m.env.define x (.lambda m.fresh x names body), m.fresh + 1, events⟩) := by
  obtain ⟨names, hn⟩ := parameterNames_of_symbols hp
  refine ⟨names, .definedFunction x names.length :: m.events, ?_⟩
  simp only [evaluate, step, hs, defineForm, hn]
  rfl

theorem run_variable {form : Value} (hs : Special.ofHead? head = some .define)
    (hv : (evaluate depth form).run m = (.ok v, n)) :
    (evaluate (depth + 1) (.list i [head, .symbol j x, form])).run m =
      (.ok .nil, ⟨n.env.define x v, n.fresh, .definedVariable x :: n.events⟩) := by
  simp only [evaluate, step, hs, defineForm, run_bind, hv]
  rfl

/-- A call of a lambda gives what its forms give in the scope that it opens. -/
theorem run_lambda {operands args forms : List Value} {name : String} {names : List String}
    (hs : Special.ofHead? head = none)
    (hc : Calls (evaluate depth) head operands m (.lambda name names forms) args n)
    (hl : args.length = names.length) :
    ((evaluate (depth + 1) (.list i (head :: operands))).run m).1 =
      ((inOrder (evaluate depth) .nil forms).run (scopeOf names args n)).1 := by
  simp only [evaluate, step, hs, run_callForm_of_calls hc, call, hl, if_true, run_within]
  rfl

end Forms

/-- Sameness is an equivalence, and values that are the same are equal if one session has had them;
every scope in the life of a session and every evaluation has only values of one history. Calls that
build something and function definitions yield a value that is the same as none that was there
before. A value bound to a name, passed for a parameter, or stored by `cons` or in front by `list`
is the same when it is looked up or taken out again; a pair or a list may have gone any way through
the session in between. -/
theorem sameness_discipline :
    (Equivalence fun u v : Value => u.same v) ∧
    (∀ s, Reachable s → ∃ known, History s known ∧
      ∀ v, s.machine.env.Binds v → known s.machine v) ∧
    (∀ e, Live e → ∃ s known t, History s known ∧ ∀ v, e.Binds v → known t v) ∧
    (∀ depth f m, Occurs depth f m → ∃ s known, History s known ∧
      ∀ t v, Arises depth f m t v → known t v) ∧
    (∀ s known, History s known → ∀ t u, Present known t u → ∀ t' v, Present known t' v →
      u.same v → u.equal v) ∧
    (∀ s known, History s known → ∀ t w, Present known t w → Existed s.machine w) ∧
    (∀ depth form m p args n, Uses depth form m p args n → p.Makes args →
      ∀ v, ((evaluate (depth + 1) form).run m).1 = .ok v → ∀ w, Existed n w → v.same w = false) ∧
    (∀ depth form m p args n, Uses depth form m p args n → p.Suits args →
      ∃ v, ((evaluate (depth + 1) form).run m).1 = .ok v) ∧
    (∀ depth i j k head x params body m, Special.ofHead? head = some .define →
      (∀ p ∈ params, p.isSymbol) → ∃ f n,
        (evaluate (depth + 1) (.list i (head :: .list j (.symbol k x :: params) :: body))).run m =
          (.ok .nil, n) ∧
        n.env.lookup? x = some f ∧ f.isProcedure ∧ ∀ w, Existed m w → f.same w = false) ∧
    (∀ depth i j head x form m v m', Special.ofHead? head = some .define →
      (evaluate depth form).run m = (.ok v, m') → ∃ n,
        (evaluate (depth + 1) (.list i [head, .symbol j x, form])).run m = (.ok .nil, n) ∧
        ∀ later, n.env.Grows (· ≠ x) later.env → ∀ d k,
          GivesBack v ((evaluate (d + 1) (.symbol k x)).run later).1) ∧
    (∀ depth i head operands m name params body args n, Special.ofHead? head = none →
      Calls (evaluate depth) head operands m (.lambda name params body) args n →
      args.length = params.length →
        ((evaluate (depth + 1) (.list i (head :: operands))).run m).1 =
          ((inOrder (evaluate depth) .nil body).run (scopeOf params args n)).1 ∧
        ∀ k x a, params[k]? = some x → args[k]? = some a → x ∉ params.drop (k + 1) →
          ∀ later, (scopeOf params args n).env.Grows (· ≠ x) later.env → ∀ d j,
            GivesBack a ((evaluate (d + 1) (.symbol j x)).run later).1) ∧
    ∀ s known, History s known → ∀ t v, Present known t v → ∀ t' u, Present known t' u →
      v.same u →
        (∀ a d, Gave .cons [a, d] v → Fetches .car u a ∧ Fetches .cdr u d) ∧
        ∀ a items, Gave .list (a :: items) v → Fetches .car u a := by
  refine ⟨Value.same_equivalence, fun s => history_of_reachable, fun e => history_of_live,
    fun depth f m => history_of_occurs, ?_, ?_, ?_, ?_, ?_, ?_, ?_, ?_⟩
  · intro s known h t u hu t' v hv hs
    rw [eq_of_same h hu hv hs]
    exact v.equal_refl
  · exact fun s known h t w => existed_of_present h
  · intro depth form m p args n hu hm v hv w hw
    rw [run_of_uses hu] at hv
    exact same_eq_false_of_existed (Primitive.identity?_of_makes hm hv) hw
  · intro depth form m p args n hu hsuits
    rw [run_of_uses hu]
    exact Primitive.compute_of_suits hsuits n.fresh
  · intro depth i j k head x params body m hs hparams
    obtain ⟨names, events, hr⟩ := run_function hs hparams m
    refine ⟨.lambda m.fresh x names body, _, hr, ?_, rfl, fun w hw => ?_⟩
    · rw [Environment.lookup?_define, if_pos rfl]
    · exact same_eq_false_of_existed rfl hw
  · intro depth i j head x form m v m' hs hv
    refine ⟨_, run_variable hs hv, fun later hl d k => ?_⟩
    refine givesBack_lookup ?_ hl (fun h => h rfl) d k
    rw [Environment.lookup?_define, if_pos rfl]
  · intro depth i head operands m name params body args n hs hc hl
    refine ⟨run_lambda hs hc hl, fun k x a hx ha hlast later hg d j => ?_⟩
    refine givesBack_lookup ?_ hg (fun h => h rfl) d j
    rw [scopeOf, Environment.lookup?_push, Frame.lookup?_ofParameters hx ha hlast, Option.some_or]
  · intro s known h t v hv t' u hu hs
    rw [← eq_of_same h hv hu hs]
    refine ⟨fun a d hg => ?_, fun a items hg => ?_⟩
    · obtain ⟨fresh, hc⟩ := compute_of_gave hg
      cases hc
      exact ⟨fetches_of_compute fun _ => rfl, fetches_of_compute fun _ => rfl⟩
    · obtain ⟨fresh, hc⟩ := compute_of_gave hg
      cases hc
      exact fetches_of_compute fun _ => rfl

/-! A pair is bound and gathered twice in a list, which is given back. -/

abbrev shared : Value :=
  .pair 2 (.int 1) (.list 1 [.int 2])

abbrev twice : String :=
  "(define p (cons 1 '(2))) (list p p)"

abbrev sharing : Session :=
  ((start 9).eval twice).2

abbrev consing : Value :=
  .list 0 [.symbol 0 "cons", .int 1, .list 0 [.symbol 0 "list", .int 2]]

theorem sameness_discipline_shared :
    ((start 9).eval twice).1 = .ok (.list 3 [shared, shared]) ∧
      shared.equal shared ∧ (Value.list 4 [shared]).same (.list 3 [shared, shared]) = false ∧
      GivesBack (.list 1 [.int 2])
        ((evaluate 3 (.list 0 [.symbol 0 "cdr", .symbol 0 "p"])).run sharing.machine).1 := by
  have hv : ((start 9).eval twice).1 = .ok (.list 3 [shared, shared]) := by cbv
  have hp : sharing.machine.env.lookup? "p" = some shared := by cbv
  obtain ⟨_, _, _, _, hequal, hexisted, hmade, _, _, _, _, hback⟩ := sameness_discipline
  obtain ⟨known, hh, hk⟩ : ∃ known, History sharing known ∧ ∀ v,
      sharing.machine.env.Binds v ∨ ((start 9).eval twice).1 = .ok v → known sharing.machine v :=
    ⟨_, .eval (.start 9) twice, fun v hv => .inr (.inr ⟨rfl, hv⟩)⟩
  have hbound : Present known sharing.machine shared :=
    ⟨shared, hk _ (.inl (Environment.binds_of_lookup? hp)), shared.mem_surface_self⟩
  have hlist : Present known sharing.machine (.list 3 [shared, shared]) :=
    ⟨_, hk _ (.inr hv), Value.mem_surface_self _⟩
  have hsame : shared.same shared := rfl
  have hnew : Uses 2 (.list 0 [.symbol 0 "list", .symbol 0 "p"]) sharing.machine .list [shared]
      sharing.machine := uses_of_run (k := sharing.machine) rfl (by cbv) (by cbv)
  have hcdr : Uses 2 (.list 0 [.symbol 0 "cdr", .symbol 0 "p"]) sharing.machine .cdr [shared]
      sharing.machine := uses_of_run (k := sharing.machine) rfl (by cbv) (by cbv)
  have hcons : Uses 3 consing Catalog.machine .cons [.int 1, .list 1 [.int 2]]
      { Catalog.machine with fresh := 2 } :=
    uses_of_run (k := Catalog.machine) rfl (by cbv) (by cbv)
  have hgave : Gave .cons [.int 1, .list 1 [.int 2]] shared := ⟨_, _, _, _, hcons, by cbv⟩
  refine ⟨hv, hequal _ _ hh _ _ hbound _ _ hbound hsame, ?_, ?_⟩
  · exact hmade _ _ _ _ _ _ hnew (.list _) _ (by cbv) _ (hexisted _ _ hh _ _ hlist)
  · exact ((hback _ _ hh _ _ hbound _ _ hbound hsame).1 _ _ hgave).2 _ _ _ _ hcdr

end Session

end DynamicLisp
