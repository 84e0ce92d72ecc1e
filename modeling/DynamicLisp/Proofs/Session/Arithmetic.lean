import Mathlib
import DynamicLisp.Proofs.Eval.Halting
import DynamicLisp.Proofs.Reading.RoundTrip
import DynamicLisp.Session

/-! Arithmetic programs. Main statement: the text of an expression runs to its exact value if every
operator in it has a result in range, and otherwise to the fault of the first operator, operands
before their operator and from left to right, that has none. -/
namespace DynamicLisp.Arithmetic

/-- The operators of arithmetic. -/
inductive Operator where
  | sum
  | product
  | difference
  | quotient
  | magnitude
  deriving DecidableEq, Repr

namespace Operator

/-- The primitive that carries an operator out. -/
def primitive : Operator → Primitive
  | sum => .add
  | product => .mul
  | difference => .sub
  | quotient => .div
  | magnitude => .abs

/-- The name by which programs call an operator. -/
def name (op : Operator) : String :=
  (Native.primitive op.primitive).name

/-- Whether an operator takes so many operands. -/
def Takes : Operator → Nat → Prop
  | sum, _ | product, _ => True
  | difference, n | quotient, n => n = 2
  | magnitude, n => n = 1

/-- The exact result; quotients are truncated toward zero. -/
def result : Operator → List Int → Int
  | sum, ns => ns.sum
  | product, ns => ns.prod
  | difference, [a, b] => a - b
  | quotient, [a, b] => a.tdiv b
  | magnitude, [a] => |a|
  | _, _ => 0

/-- What is wrong with a result, if it is not in range: it is named in a fault, unless it is too
long to be written. -/
def excess? (n : Int) : Option Halt :=
  if Value.inRange n then none
  else if Text.isWritable n then some (.fault (.overflow n))
  else some .longNumber

/-- What is wrong with an operation: the divisor is zero, or the exact result is not in range. -/
def failure? (op : Operator) (ns : List Int) : Option Halt :=
  if op = quotient ∧ ns[1]? = some 0 then some (.fault .divisionByZero)
  else excess? (op.result ns)

private theorem integer_eq (n : Int) :
    Primitive.integer n = (excess? n).elim (.ok (.int n)) .error := by
  unfold Primitive.integer Value.checked excess?
  split
  · rfl
  · split <;> rfl

private theorem integers_map_int (ns : List Int) :
    Primitive.integers (ns.map Value.int) = ns := by
  simp [Primitive.integers, List.filterMap_map]

/-- Each primitive carries its operator out, and fails if something is wrong with the operation. -/
theorem compute_primitive {op : Operator} {ns : List Int} (h : op.Takes ns.length)
    (fresh : Identity) :
    op.primitive.compute fresh (ns.map Value.int) =
      (op.failure? ns).elim (.ok (.int (op.result ns))) .error := by
  cases op with
  | sum | product =>
    simp only [primitive, Primitive.compute, integers_map_int, integer_eq]
    rfl
  | difference =>
    obtain ⟨a, b, rfl⟩ := List.length_eq_two.mp h
    exact integer_eq (a - b)
  | quotient =>
    obtain ⟨a, b, rfl⟩ := List.length_eq_two.mp h
    by_cases hb : b = 0
    · subst hb
      rfl
    · have hf : failure? quotient [a, b] = excess? (a.tdiv b) :=
        if_neg fun h => hb (Option.some.inj h.2)
      show (Except.mapError Halt.fault (Primitive.quotient [.int a, .int b])).bind _ = _
      rw [Primitive.quotient_ints hb, hf]
      exact integer_eq (a.tdiv b)
  | magnitude =>
    obtain ⟨a, rfl⟩ := List.length_eq_one_iff.mp h
    have ha : failure? magnitude [a] = excess? a.natAbs := by
      rw [failure?, if_neg (fun h => nomatch h.1), result, Int.abs_eq_natAbs]
    rw [ha, result, Int.abs_eq_natAbs]
    exact integer_eq a.natAbs

end Operator

/-- Expressions of literals in range and operators, each with as many operands as it takes. -/
inductive Expression where
  | literal (n : Int) (h : Value.inRange n)
  | node (op : Operator) {n : Nat} (h : op.Takes n) (operands : Fin n → Expression)

namespace Expression

/-- The exact value. -/
def value : Expression → Int
  | literal n _ => n
  | node op _ xs => op.result (List.ofFn fun i => (xs i).value)

/-- The form that stands for an expression in a program. -/
def form : Expression → Value
  | literal n _ => .int n
  | node op _ xs => .list .reader (.symbol .reader op.name :: List.ofFn fun i => (xs i).form)

/-- How many evaluations are nested at most. -/
def height : Expression → Nat
  | literal _ _ => 1
  | node _ _ xs => max 1 (Finset.univ.sup fun i => (xs i).height) + 1

/-- The operations that are carried out, in order: operands before their operator, from left to
right. -/
def operations : Expression → List (Operator × List Int)
  | literal _ _ => []
  | node op _ xs =>
    (List.ofFn fun i => (xs i).operations).flatten ++ [(op, List.ofFn fun i => (xs i).value)]

variable {op : Operator} {n : Nat} {h : op.Takes n} {xs : Fin n → Expression} {x : Expression}
  {m : Machine} {depth : Nat}

/-- What carrying out some operations comes to: `a`, unless something is wrong with one of them. -/
def conclude {α : Type} (os : List (Operator × List Int)) (a : α) : Except Halt α :=
  (os.findSome? fun o => o.1.failure? o.2).elim (.ok a) .error

/-! ### Evaluation -/

open Eval

/-- The names of the operators mean the operators. -/
def Provides (e : Environment) : Prop :=
  ∀ op : Operator, e.lookup? op.name = some (.native (.primitive op.primitive))

/-- Evaluation of an expression carries out its operations; of the machine it uses up identities
alone. -/
def RunsAt (depth : Nat) (x : Expression) : Prop :=
  ∀ m : Machine, Provides m.env → ∃ k, (evaluate depth x.form).run m =
    (conclude x.operations (.int x.value), { m with fresh := k })

private theorem run_each {l : List Expression} (h : ∀ x ∈ l, RunsAt depth x)
    (hm : Provides m.env) : ∃ k, (each (evaluate depth) (l.map form)).run m =
      (conclude (l.flatMap operations) (l.map fun x => .int x.value), { m with fresh := k }) := by
  induction l generalizing m with
  | nil => exact ⟨m.fresh, rfl⟩
  | cons x l ih =>
    obtain ⟨hx, hl⟩ := List.forall_mem_cons.mp h
    obtain ⟨k, hk⟩ := hx m hm
    obtain ⟨k', hk'⟩ := ih hl (m := { m with fresh := k }) hm
    rw [List.map_cons, each, run_bind, hk, List.flatMap_cons]
    unfold conclude at hk' ⊢
    rw [List.findSome?_append]
    cases x.operations.findSome? fun o => o.1.failure? o.2 with
    | some e => exact ⟨k, rfl⟩
    | none =>
      refine ⟨k', ?_⟩
      simp only [Option.elim, run_bind, hk', Option.none_or]
      cases (l.flatMap operations).findSome? fun o => o.1.failure? o.2 <;> rfl

private theorem form_node : (node op h xs).form =
    .list .reader (.symbol .reader op.name :: (List.ofFn xs).map form) := by
  rw [form, List.map_ofFn]
  rfl

private theorem operations_node : (node op h xs).operations =
    (List.ofFn xs).flatMap operations ++ [(op, (List.ofFn xs).map value)] := by
  rw [operations, List.flatMap_def, List.map_ofFn, List.map_ofFn]
  rfl

private theorem value_node : (node op h xs).value = op.result ((List.ofFn xs).map value) := by
  rw [value, List.map_ofFn]
  rfl

private theorem runsAt_node (hx : ∀ i, RunsAt (depth + 1) (xs i)) :
    RunsAt (depth + 2) (node op h xs) := by
  intro m hm
  have hhead : (evaluate (depth + 1) (.symbol .reader op.name)).run m =
      (.ok (.native (.primitive op.primitive)), m) := by
    show (lookup op.name).run m = _
    rw [run_lookup, hm op]
    rfl
  have hs : Special.ofHead? (.symbol .reader op.name) = none := by
    cases op <;> rfl
  have hrun : (evaluate (depth + 2) (node op h xs).form).run m =
      (each (evaluate (depth + 1)) ((List.ofFn xs).map form) >>=
        applyWith (evaluate (depth + 1)) (.native (.primitive op.primitive))).run m := by
    rw [form_node, evaluate, step, hs]
    exact run_callForm hhead rfl rfl
  have htakes : op.Takes ((List.ofFn xs).map value).length := by
    rw [List.length_map, List.length_ofFn]
    exact h
  have hargs : (List.ofFn xs).map (fun x => Value.int x.value) =
      ((List.ofFn xs).map value).map Value.int := by
    rw [List.map_map]
    rfl
  obtain ⟨k, hk⟩ := run_each (List.forall_mem_ofFn_iff.mpr hx) hm
  rw [hrun, run_bind, hk, operations_node, value_node]
  unfold conclude
  rw [List.findSome?_append]
  cases ((List.ofFn xs).flatMap operations).findSome? fun o => o.1.failure? o.2 with
  | some e => exact ⟨k, rfl⟩
  | none =>
    refine ⟨k + 1, ?_⟩
    simp only [Option.elim, applyWith_primitive, run_bind, run_newIdentity, run_ofHalt, hargs,
      Operator.compute_primitive htakes, Option.none_or, List.findSome?_singleton]

/-- Expressions run as they should wherever the names of the operators have their meaning. -/
theorem runsAt (x : Expression) (hd : x.height ≤ depth) : RunsAt depth x := by
  induction x generalizing depth with
  | literal n hn =>
    intro m _
    cases depth with
    | zero => exact (Nat.not_succ_le_zero 0 hd).elim
    | succ depth => exact ⟨m.fresh, rfl⟩
  | node op h xs ih =>
    rcases depth with _ | _ | depth
    · exact (Nat.not_succ_le_zero _ hd).elim
    · have hone : 1 ≤ 0 := (le_max_left _ _).trans (Nat.le_of_succ_le_succ hd)
      exact (Nat.not_succ_le_zero 0 hone).elim
    · refine runsAt_node fun i => ih i ?_
      have hi : (xs i).height ≤ Finset.univ.sup fun i => (xs i).height :=
        Finset.le_sup (f := fun i => (xs i).height) (Finset.mem_univ i)
      exact hi.trans ((le_max_right _ _).trans (Nat.le_of_succ_le_succ hd))

/-! ### Programs -/

theorem isForm_form (x : Expression) : x.form.IsForm := by
  induction x with
  | literal n hn => exact .int (Value.inRange_iff.mp hn)
  | node op h xs ih =>
    rw [form_node]
    refine .list (List.forall_mem_cons.mpr ⟨.symbol ?_, ?_⟩)
    · cases op <;> exact Token.isName_of_ofPlain? (by decide) (by decide) (by decide)
    · exact List.forall_mem_map.mpr (List.forall_mem_ofFn_iff.mpr ih)

theorem anonymous_form (x : Expression) : x.form.anonymous = x.form := by
  induction x with
  | literal n hn => rfl
  | node op h xs ih =>
    rw [form_node, Value.anonymous, Value.rename_list, List.map_cons, List.map_map]
    have hxs : (List.ofFn xs).map (Value.rename (fun _ => .reader) ∘ form) =
        (List.ofFn xs).map form :=
      List.map_congr_left (List.forall_mem_ofFn_iff.mpr ih)
    rw [hxs]
    rfl

theorem provides_catalog : Provides Catalog.environment := by
  intro op
  cases op <;> rfl

private theorem inRange_of_excess? {n : Int} (h : Operator.excess? n = none) :
    Value.inRange n := by
  unfold Operator.excess? at h
  split at h
  · assumption
  · split at h <;> cases h

theorem inRange_value (hx : ∀ o ∈ x.operations, o.1.failure? o.2 = none) :
    Value.inRange x.value := by
  cases x with
  | literal n hn => exact hn
  | node op h xs =>
    rw [operations_node] at hx
    have hop := hx _ (List.mem_append_right _ (.head _))
    rw [value_node]
    simp only [Operator.failure?] at hop
    split at hop
    · cases hop
    · exact inRange_of_excess? hop

/-- An expression runs to what its operations come to. -/
theorem run_program (x : Expression) {source : String}
    (hsource : Token.Layout x.form.tokens source.toList) (hd : x.height ≤ depth) :
    (Program.run source depth).1 = conclude x.operations (Text.writeInt x.value) := by
  have ht : Token.ofText source = x.form.tokens :=
    hsource.ofText_eq (isForm_form x).isWhole_tokens
  have hr : (Reading.ofTokens (Token.ofText source)).outcome = .ok x.form := by
    rw [ht, (isForm_form x).read_tokens, anonymous_form]
  obtain ⟨k, hk⟩ := runsAt x hd Catalog.machine provides_catalog
  have hv : (Program.value depth (Token.ofText source)).run Catalog.machine =
      (conclude x.operations (.int x.value), { Catalog.machine with fresh := k }) := by
    rw [Program.value, hr, run_bind]
    exact hk
  rw [Program.fst_run, Program.display, run_bind, hv]
  unfold conclude
  cases hc : x.operations.findSome? fun o => o.1.failure? o.2 with
  | some e => rfl
  | none =>
    have hn : Text.isWritable x.value := Value.isWritable_of_inRange
      (inRange_value (List.findSome?_eq_none_iff.mp hc))
    simp only [Option.elim, run_ofHalt]
    exact (if_pos hn).trans (congrArg Except.ok (by rw [Value.display]))

end Expression

open Expression in
/-- Arithmetic programs mean arithmetic. The text of an expression, with any layout, runs to the
decimal text of the exact value if nothing is wrong with any operation; otherwise it ends with what
is wrong with the first one with which something is. The nesting allowed has to suffice for the
height of the expression. -/
theorem run_expression (x : Expression) (source : String) (depth : Nat)
    (hsource : Token.Layout x.form.tokens source.toList) (hd : x.height ≤ depth) :
    ((∀ o ∈ x.operations, o.1.failure? o.2 = none) →
      (Program.run source depth).1 = .ok (Text.writeInt x.value)) ∧
    ∀ before op ns after e, x.operations = before ++ (op, ns) :: after →
      (∀ o ∈ before, o.1.failure? o.2 = none) → op.failure? ns = some e →
      (Program.run source depth).1 = .error e := by
  rw [run_program x hsource hd]
  unfold conclude
  constructor
  · intro h
    rw [List.findSome?_eq_none_iff.mpr h]
    rfl
  · intro before op ns after e ho hb he
    rw [ho, List.findSome?_append, List.findSome?_eq_none_iff.mpr hb, List.findSome?_cons, he]
    rfl

/-! A sum that is too great by one, in a text with few blanks. -/

abbrev tooGreat : Expression :=
  .node .sum (n := 2) trivial
    ![.literal 2147483647 rfl, .node .product (n := 1) trivial ![.literal 1 rfl]]

abbrev tooGreatText : String :=
  " (+ 2147483647(* 1)\n)"

theorem run_expression_tooGreat :
    tooGreat.form.display = "(+ 2147483647 (* 1))" ∧
      Token.Layout tooGreat.form.tokens tooGreatText.toList ∧ tooGreat.height ≤ 3 ∧
      (Program.run tooGreatText 3).1 = .error (.fault (.overflow 2147483648)) := by
  have ht : Token.ofText tooGreatText = tooGreat.form.tokens := by cbv
  have hsource : Token.Layout tooGreat.form.tokens tooGreatText.toList :=
    ht ▸ Token.layout_ofText tooGreatText
  have hd : tooGreat.height ≤ 3 := by decide
  have hproduct : Operator.failure? .product [1] = none := rfl
  have hsum : Operator.failure? .sum [2147483647, 1] = some (.fault (.overflow 2147483648)) := by
    have hw : Text.isWritable 2147483648 := Value.isWritable_of_natAbs_lt (by decide)
    have hr : Operator.result .sum [2147483647, 1] = 2147483648 := rfl
    rw [Operator.failure?, if_neg (by decide), hr, Operator.excess?, if_neg (by decide), if_pos hw]
  have hops : tooGreat.operations = [(.product, [1])] ++ [(.sum, [2147483647, 1])] := rfl
  have hrun := (run_expression tooGreat _ 3 hsource hd).2 _ _ _ _ _ hops
    (List.forall_mem_singleton.mpr hproduct) hsum
  exact ⟨by cbv, hsource, hd, hrun⟩

end DynamicLisp.Arithmetic
