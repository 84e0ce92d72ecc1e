import Mathlib
import DynamicLisp.Proofs.Eval.Discipline
import DynamicLisp.Proofs.Value.Displayed

/-! What primitives and calls refuse. Operands are refused for a fault that evaluation can find; a
sum or product that is too long to be written leaves no text for its fault. -/
namespace DynamicLisp

/-- Whether evaluation can find a fault. The others are found in texts, or in names and procedures
that are given from outside and that no program makes. -/
def Fault.isDynamic : Fault → Bool
  | emptyProgram | missingCloseParen | unexpectedCloseParen | quoteWithoutList
  | notApplicable _ | notSymbol | nameNotSymbol _ => false
  | _ => true

/-- Whatever a computation is refused for satisfies `P`. -/
def RefusedFor {ε α : Type} (P : ε → Prop) (r : Except ε α) : Prop :=
  ∀ e, r = .error e → P e

namespace RefusedFor
variable {ε δ α β : Type} {P : ε → Prop} {Q : δ → Prop} {r : Except ε α}

theorem ok (a : α) : RefusedFor P (.ok a) :=
  fun _ h => nomatch h

theorem error {e : ε} (h : P e) : RefusedFor P (.error e : Except ε α) := by
  rintro _ ⟨⟩
  exact h

theorem bind {f : α → Except ε β} (hr : RefusedFor P r) (hf : ∀ a, r = .ok a → RefusedFor P (f a)) :
    RefusedFor P (r.bind f) := by
  cases r with
  | error e => exact error (hr e rfl)
  | ok a => exact hf a rfl

theorem map {f : α → β} (hr : RefusedFor P r) : RefusedFor P (r.map f) := by
  cases r with
  | error e => exact error (hr e rfl)
  | ok a => exact ok (f a)

theorem mapError {g : ε → δ} (hr : RefusedFor P r) (hg : ∀ e, P e → Q (g e)) :
    RefusedFor Q (r.mapError g) := by
  cases r with
  | error e => exact error (hg e (hr e rfl))
  | ok a => exact ok a

end RefusedFor

namespace Fault

/-- The names under which primitives and `apply` refuse their operands. -/
def operations : List String :=
  ["subtract", "divide", "abs", ">", "<", ">=", "<=", "=", "cons", "CAR", "CDR", "list?", "eq?",
    "equal?", "apply"]

/-- The faults for which a primitive or `apply` refuses what it is called with. -/
inductive OfCall : Fault → Prop where
  | notInteger : OfCall .notInteger
  | notList : OfCall .notList
  | notProcedure : OfCall .notProcedure
  | notPair {op : String} (h : op ∈ operations) : OfCall (.notPair op)
  | operandCount {op : String} (h : op ∈ operations) (given : Nat) :
      OfCall (.operandCount op given)
  | notOneOperand {op : String} (h : op ∈ operations) : OfCall (.notOneOperand op)
  | divisionByZero : OfCall .divisionByZero
  | overflow (n : Int) : OfCall (.overflow n)

theorem OfCall.isDynamic {f : Fault} (h : f.OfCall) : f.isDynamic := by
  cases h <;> rfl

end Fault

/-! ### Operands -/

namespace Value
open Fault

theorem refused_asInt (v : Value) : RefusedFor OfCall v.asInt := by
  cases v with
  | int n => exact .ok n
  | _ => exact .error .notInteger

theorem asInt_eq_ok {v : Value} {n : Int} (h : v.asInt = .ok n) : v = .int n := by
  cases v with
  | int m =>
    cases h
    rfl
  | _ => cases h

theorem refused_asList (v : Value) : RefusedFor OfCall v.asList := by
  cases v with
  | list i items => exact .ok items
  | _ => exact .error .notList

theorem refused_first {op : String} (ho : op ∈ operations) (v : Value) :
    RefusedFor OfCall (v.first op) := by
  unfold first
  split
  · exact .ok _
  · exact .ok _
  · exact .error (.notPair ho)

theorem refused_rest {op : String} (ho : op ∈ operations) (fresh : Identity) (v : Value) :
    RefusedFor OfCall (v.rest op fresh) := by
  unfold rest
  split
  · exact .ok _
  · exact .ok _
  · exact .error (.notPair ho)

end Value

namespace Primitive
open Fault
variable {args : List Value} {fresh : Identity} {e : Halt} {op : String}

theorem refused_twoIntegers (ho : op ∈ operations) (args : List Value) :
    RefusedFor OfCall (twoIntegers op args) := by
  unfold twoIntegers
  split
  · next a b =>
    refine .bind a.refused_asInt fun m _ => ?_
    exact .bind b.refused_asInt fun n _ => .ok (m, n)
  · exact .error (.operandCount ho _)

theorem twoIntegers_eq_ok {a b : Int} (h : twoIntegers op args = .ok (a, b)) :
    args = [.int a, .int b] := by
  unfold twoIntegers at h
  split at h
  · next v w =>
    obtain ⟨m, hm, h⟩ := bind_eq_ok h
    obtain ⟨n, hn, h⟩ := bind_eq_ok h
    rw [Value.asInt_eq_ok hm, Value.asInt_eq_ok hn]
    cases h
    rfl
  · cases h

theorem refused_oneOperand (ho : op ∈ operations) (args : List Value) :
    RefusedFor OfCall (oneOperand op args) := by
  unfold oneOperand
  split
  · exact .ok _
  · exact .error (.operandCount ho _)

theorem oneOperand_eq_ok {v : Value} (h : oneOperand op args = .ok v) : args = [v] := by
  unfold oneOperand at h
  split at h <;> cases h
  rfl

theorem refused_twoOperands (ho : op ∈ operations) (args : List Value) :
    RefusedFor OfCall (twoOperands op args) := by
  unfold twoOperands
  split
  · exact .ok _
  · exact .error (.operandCount ho _)

theorem refused_pairOperand (ho : op ∈ operations) (args : List Value) :
    RefusedFor OfCall (pairOperand op args) := by
  unfold pairOperand
  split
  · exact .ok _
  · exact .error (.notOneOperand ho)

theorem refused_concat (args : List Value) : RefusedFor OfCall (concat args) := by
  induction args with
  | nil => exact .ok []
  | cons v vs ih =>
    refine .bind v.refused_asList fun items _ => ?_
    exact .bind ih fun ws _ => .ok (items ++ ws)

theorem refused_compare (ho : op ∈ operations) (test : Int → Int → Bool) (args : List Value) :
    RefusedFor OfCall (compare op test args) :=
  .bind (refused_twoIntegers ho args) fun ab _ => .ok (Value.bool (test ab.1 ab.2))

theorem refused_quotient (args : List Value) : RefusedFor OfCall (quotient args) := by
  refine .bind (refused_twoIntegers (by decide) args) fun ab _ => ?_
  simp only
  split
  · exact .error .divisionByZero
  · exact .ok _

theorem quotient_ints {a b : Int} (hb : b ≠ 0) :
    quotient [.int a, .int b] = .ok (a.tdiv b) := by
  simp [quotient, twoIntegers, Value.asInt, hb, bind, Except.bind, pure, Except.pure]

theorem quotient_eq_ok {q : Int} (h : quotient args = .ok q) :
    ∃ a b, args = [.int a, .int b] ∧ b ≠ 0 ∧ q = a.tdiv b := by
  obtain ⟨⟨a, b⟩, hab, h⟩ := bind_eq_ok h
  simp only at h
  split at h
  · cases h
  · next hb =>
    cases h
    exact ⟨a, b, twoIntegers_eq_ok hab, hb, rfl⟩

/-! ### Primitives -/

/-- The exact number that a sum or a product comes to. -/
def total? (p : Primitive) (args : List Value) : Option Int :=
  match p with
  | add => some (integers args).sum
  | mul => some (integers args).prod
  | _ => none

/-- The reasons for which a primitive can refuse operands. -/
inductive Refusal (p : Primitive) (args : List Value) : Halt → Prop where
  | fault {f : Fault} (hf : f.isDynamic) : Refusal p args (.fault f)
  | overlong {n : Int} (ht : p.total? args = some n) (hn : Text.isWritable n = false) :
      Refusal p args .longNumber

/-- The number that an arithmetic primitive comes to, before it is checked. -/
inductive Result : Primitive → List Value → Int → Prop where
  | sum {args : List Value} : Result .add args ((integers args).foldr (· + ·) 0)
  | product {args : List Value} : Result .mul args ((integers args).foldr (· * ·) 1)
  | difference {a b : Int} : Result .sub [.int a, .int b] (a - b)
  | quotient {a b : Int} (hb : b ≠ 0) : Result .div [.int a, .int b] (a.tdiv b)
  | magnitude {a : Int} : Result .abs [.int a] a.natAbs

/-- What makes a primitive refuse operands: a fault of theirs, or a number that fails the check. -/
inductive Failing (p : Primitive) (args : List Value) : Halt → Prop where
  | operands {f : Fault} (hf : f.OfCall) : Failing p args (.fault f)
  | result {n : Int} {e : Halt} (hn : p.Result args n) (he : integer n = .error e) :
      Failing p args e

private theorem failing_mapError {p : Primitive} {α : Type} {r : Except Fault α}
    (h : RefusedFor OfCall r) : RefusedFor (p.Failing args) (r.mapError .fault) :=
  h.mapError fun _ hf => .operands hf

theorem failing_of_compute {p : Primitive} (h : p.compute fresh args = .error e) :
    p.Failing args e := by
  suffices hr : RefusedFor (p.Failing args) (p.compute fresh args) from hr e h
  cases p with
  | add => exact fun _ he => .result .sum he
  | mul => exact fun _ he => .result .product he
  | sub =>
    refine .bind (failing_mapError (refused_twoIntegers (by decide) args)) fun ab hab => ?_
    obtain ⟨a, b⟩ := ab
    obtain rfl := twoIntegers_eq_ok (mapError_eq_ok hab)
    exact fun _ he => .result .difference he
  | div =>
    refine .bind (failing_mapError (refused_quotient args)) fun q hq => ?_
    obtain ⟨a, b, rfl, hb, rfl⟩ := quotient_eq_ok (mapError_eq_ok hq)
    exact fun _ he => .result (.quotient hb) he
  | abs =>
    have hone : RefusedFor OfCall ((oneOperand "abs" args).bind Value.asInt) :=
      .bind (refused_oneOperand (by decide) args) fun v _ => v.refused_asInt
    refine .bind (failing_mapError hone) fun n hn => ?_
    obtain ⟨v, hv, hi⟩ := bind_eq_ok (mapError_eq_ok hn)
    obtain rfl := oneOperand_eq_ok hv
    obtain rfl := Value.asInt_eq_ok hi
    exact fun _ he => .result .magnitude he
  | gt | lt | ge | le | numEq => exact failing_mapError (refused_compare (by decide) _ args)
  | cons => exact failing_mapError (.map (refused_twoOperands (by decide) args))
  | car =>
    exact failing_mapError (.bind (refused_pairOperand (by decide) args) fun v _ =>
      v.refused_first (by decide))
  | cdr =>
    exact failing_mapError (.bind (refused_pairOperand (by decide) args) fun v _ =>
      v.refused_rest (by decide) fresh)
  | list => exact .ok _
  | append => exact failing_mapError (.map (refused_concat args))
  | isList => exact failing_mapError (.map (refused_oneOperand (by decide) args))
  | eq | equal => exact failing_mapError (.map (refused_twoOperands (by decide) args))

theorem integer_of_inRange {n : Int} (h : Value.inRange n) : integer n = .ok (.int n) := by
  rw [integer, Value.checked_of_inRange h]
  rfl

theorem integer_of_not_inRange {n : Int} (h : ¬ Value.inRange n) (hw : Text.isWritable n) :
    integer n = .error (.fault (.overflow n)) := by
  rw [integer, Value.checked, if_neg h, if_pos hw]
  rfl

theorem integer_eq_error {n : Int} (h : integer n = .error e) :
    e = .fault (.overflow n) ∨ e = .longNumber ∧ Text.isWritable n = false := by
  have hc := map_eq_error h
  unfold Value.checked at hc
  split at hc
  · cases hc
  · split at hc
    · cases hc
      exact .inl rfl
    · next hw =>
      cases hc
      exact .inr ⟨rfl, eq_false_of_ne_true hw⟩

/-- A fault for which a primitive refuses operands is one of those of calls. -/
theorem ofCall_of_compute {p : Primitive} {f : Fault}
    (h : p.compute fresh args = .error (.fault f)) : f.OfCall := by
  cases failing_of_compute h with
  | operands hf => exact hf
  | result _ he =>
    rcases integer_eq_error he with he | ⟨he, _⟩
    · cases he
      exact .overflow _
    · cases he

/-- Of operands in range only a sum or a product can come to a number that is too long. -/
private theorem Result.total {p : Primitive} {n : Int} (h : p.Result args n)
    (hargs : ∀ n, .int n ∈ args → Value.inRange n) (hw : Text.isWritable n = false) :
    p.total? args = some n := by
  have hsmall : ¬ n.natAbs < 10 ^ 10 := fun hn => by
    rw [Value.isWritable_of_natAbs_lt hn] at hw
    cases hw
  have hle : ∀ a, .int a ∈ args → a.natAbs ≤ 2147483648 := fun a ha =>
    Value.natAbs_le_of_inRange (hargs a ha)
  cases h with
  | sum => rfl
  | product => rfl
  | @difference a b =>
    have ha := hle a (.head _)
    have hb := hle b (.tail _ (.head _))
    omega
  | @quotient a b _ =>
    have ha := hle a (.head _)
    have hq := Int.natAbs_tdiv_le_natAbs a b
    omega
  | @magnitude a =>
    have ha := hle a (.head _)
    omega

/-- A primitive refuses operands in range for a fault, or because of a total that is too long. -/
theorem refusal_of_compute {p : Primitive} (hargs : ∀ n, .int n ∈ args → Value.inRange n)
    (h : p.compute fresh args = .error e) : p.Refusal args e := by
  cases failing_of_compute h with
  | operands hf => exact .fault hf.isDynamic
  | result hn he =>
    rcases integer_eq_error he with rfl | ⟨rfl, hw⟩
    · exact .fault rfl
    · exact .overlong (hn.total hargs hw) hw

/-- A sum or a product is its total, if that passes the check. -/
theorem compute_of_total? {p : Primitive} {n : Int} (h : p.total? args = some n) :
    p.compute fresh args = integer n := by
  cases p with
  | add | mul =>
    cases h
    rfl
  | _ => cases h

theorem compute_of_overlong {p : Primitive} {n : Int} (ht : p.total? args = some n)
    (hn : Text.isWritable n = false) : p.compute fresh args = .error .longNumber := by
  have hr : Value.inRange n = false := by
    cases hr : Value.inRange n with
    | false => rfl
    | true =>
      rw [Value.isWritable_of_inRange hr] at hn
      cases hn
  rw [compute_of_total? ht]
  simp [integer, Value.checked, hr, hn, Except.map]

end Primitive

/-! ### Calls -/

namespace Callee
open Fault

theorem refused_spread (first : Value) (others : List Value) :
    RefusedFor OfCall (spread first others) := by
  induction others generalizing first with
  | nil => exact first.refused_asList
  | cons next others ih => exact .map (ih next)

/-- A procedure is applied or there is a fault; a chain of `apply` hands on procedures only. -/
theorem fault_of_resolve {fn : Value} {args : List Value} {e : Halt} (hf : fn.isProcedure)
    (h : resolve fn args = .error e) : ∃ f : Fault, e = .fault f ∧ f.OfCall := by
  fun_induction resolve fn args with
  | case1 | case2 | case3 => cases h
  | case4 f first others hp vs hs ih => exact ih hp h
  | case5 f first others hp e' hs =>
    cases h
    exact ⟨e', rfl, refused_spread first others e' hs⟩
  | case6 f first others hp =>
    cases h
    exact ⟨_, rfl, .notProcedure⟩
  | case7 =>
    cases h
    exact ⟨_, rfl, .operandCount (by decide) _⟩
  | case8 args other hlambda hprimitive hbegin happly =>
    -- the procedures are all taken apart above
    rw [isProcedure_eq_false_of_ne hlambda hprimitive hbegin happly] at hf
    cases hf

end Callee

end DynamicLisp
