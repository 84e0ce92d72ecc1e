import DynamicLisp.Eval.Callee
import DynamicLisp.Eval.Primitives
import DynamicLisp.Proofs.Eval.Yield
import DynamicLisp.Proofs.Value.Renaming

/-! Values with other identities, in primitives and in chains of `apply`. A relabelling gives other
identities to the values that a program can take apart and may do more to the bodies of lambdas. If
no two identities fall together in it, primitives make of relabelled operands the relabelled result,
and the procedure finally called is the relabelled one. -/
namespace DynamicLisp

namespace Value

/-- The value with the identity that `r` says, `g` applied to its elements or halves, and `h` to its
body. -/
def relabel (r : Identity → Identity) (g h : Value → Value) : Value → Value
  | symbol i x => symbol (r i) x
  | text i s => text (r i) s
  | list i vs => list (r i) (vs.map g)
  | pair i a d => pair (r i) (g a) (g d)
  | lambda i name params body => lambda (r i) name params (body.map h)
  | v => v

/-- `g` gives the values that can be taken out of a value the identities that `r` says, does to
bodies what `h` does, and changes nothing but identities. -/
structure Relabels (r : Identity → Identity) (g h : Value → Value) : Prop where
  eq (v : Value) : g v = v.relabel r g h
  anonymous (v : Value) : (g v).anonymous = v.anonymous

theorem relabels_rename (r : Identity → Identity) : Relabels r (rename r) (rename r) where
  eq v := by
    cases v with
    | list i vs => exact rename_list r i vs
    | pair i a d => exact rename_pair r i a d
    | lambda i name params body => exact rename_lambda r i name params body
    | _ => rfl
  anonymous _ := anonymous_rename

end Value

variable {r : Identity → Identity} {g h : Value → Value}

namespace Value.Relabels
variable (hg : Relabels r g h) {v w : Value}
include hg

/-- What does not depend on identities does not see a relabelling. -/
theorem apply_eq {α : Type} {p : Value → α} (hp : ∀ w : Value, p w.anonymous = p w) :
    p (g v) = p v := by
  rw [← hp, hg.anonymous, hp]

theorem bool (b : Bool) : g (.bool b) = .bool b :=
  hg.eq (.bool b)

theorem isProcedure : (g v).isProcedure = v.isProcedure :=
  hg.apply_eq fun _ => isProcedure_rename

theorem isList : (g v).isList = v.isList :=
  hg.apply_eq fun _ => isList_rename

theorem asInt : (g v).asInt = v.asInt :=
  hg.apply_eq fun _ => asInt_rename

theorem inspect? : (g v).inspect? = v.inspect? :=
  hg.apply_eq fun _ => inspect?_rename

theorem equal : (g v).equal (g w) = v.equal w := by
  rw [Bool.eq_iff_iff, equal_iff, equal_iff, hg.anonymous, hg.anonymous]

/-- No two identities fall together, so the same values stay the same. -/
theorem same (hr : Function.Injective r) : (g v).same (g w) = v.same w := by
  rw [hg.eq v, hg.eq w]
  cases v <;> cases w <;> simp [Value.same, relabel, hr.eq_iff]

theorem asList (v : Value) : (g v).asList = v.asList.map (List.map g) := by
  rw [hg.eq]
  cases v <;> rfl

theorem first (op : String) (v : Value) : (g v).first op = (v.first op).map g := by
  rw [hg.eq]
  cases v with
  | list i vs => cases vs <;> rfl
  | _ => rfl

theorem rest (op : String) (fresh : Identity) (v : Value) :
    (g v).rest op (r fresh) = (v.rest op fresh).map g := by
  rw [hg.eq]
  cases v with
  | list i vs =>
    cases vs with
    | nil => rfl
    | cons a vs => exact congrArg Except.ok (hg.eq (.list fresh vs)).symm
  | _ => rfl

end Value.Relabels

/-! ### Primitives -/

namespace Primitive
open Value
variable {fresh : Identity} {args : List Value}

section Operands
variable (hg : Relabels r g h)
include hg

private theorem integers_map : integers (args.map g) = integers args := by
  unfold integers
  rw [List.filterMap_map]
  refine List.filterMap_congr fun v _ => ?_
  simp only [Function.comp, hg.eq v]
  cases v <;> rfl

private theorem twoIntegers_map (op : String) :
    twoIntegers op (args.map g) = twoIntegers op args := by
  rcases args with _ | ⟨a, _ | ⟨b, _ | ⟨c, args⟩⟩⟩
  · rfl
  · rfl
  · simp [twoIntegers, hg.asInt]
  · simp [twoIntegers]

private theorem concat_map : concat (args.map g) = (concat args).map (List.map g) := by
  induction args with
  | nil => rfl
  | cons v vs ih =>
    rw [List.map_cons, concat, concat, hg.asList, ih]
    cases v.asList with
    | error f => rfl
    | ok items =>
      cases concat vs with
      | error f => rfl
      | ok ws => exact congrArg Except.ok List.map_append.symm

private theorem integer_map (n : Int) : (integer n).map g = integer n := by
  unfold integer
  cases Value.checked n with
  | error e => rfl
  | ok n => exact congrArg Except.ok (hg.eq (.int n))

private theorem compare_map (op : String) (test : Int → Int → Bool) :
    compare op test (args.map g) = (compare op test args).map g := by
  unfold compare
  rw [twoIntegers_map hg]
  cases twoIntegers op args with
  | error f => rfl
  | ok ab => exact congrArg Except.ok (hg.bool _).symm

end Operands

private theorem oneOperand_map (op : String) :
    oneOperand op (args.map g) = (oneOperand op args).map g := by
  rcases args with _ | ⟨a, _ | ⟨b, args⟩⟩
  · rfl
  · rfl
  · simp [oneOperand, Except.map]

private theorem pairOperand_map (op : String) :
    pairOperand op (args.map g) = (pairOperand op args).map g := by
  rcases args with _ | ⟨a, _ | ⟨b, args⟩⟩ <;> rfl

private theorem twoOperands_map (op : String) :
    twoOperands op (args.map g) = (twoOperands op args).map fun ab => (g ab.1, g ab.2) := by
  rcases args with _ | ⟨a, _ | ⟨b, _ | ⟨c, args⟩⟩⟩
  · rfl
  · rfl
  · rfl
  · simp [twoOperands, Except.map]

private theorem map_mapError {α β : Type} {f : α → β} (x : Except Fault α) :
    (x.mapError Halt.fault).map f = (x.map f).mapError Halt.fault := by
  cases x <;> rfl

/-- A primitive makes of relabelled operands the relabelled result, and refuses them for the same
reason. Only `eq?` looks at identities, so different ones have to stay different. -/
theorem compute_relabels (hg : Relabels r g h) (hr : Function.Injective r) (p : Primitive)
    (fresh : Identity) (args : List Value) :
    p.compute (r fresh) (args.map g) = (p.compute fresh args).map g := by
  cases p with
  | add | mul => simp only [compute, integers_map hg, integer_map hg]
  | sub =>
    simp only [compute, twoIntegers_map hg]
    cases twoIntegers "subtract" args with
    | error f => rfl
    | ok ab => exact (integer_map hg _).symm
  | div =>
    have hq : quotient (args.map g) = quotient args := by
      rw [quotient, quotient, twoIntegers_map hg]
    simp only [compute, hq]
    cases quotient args with
    | error f => rfl
    | ok n => exact (integer_map hg n).symm
  | abs =>
    have ho : (oneOperand "abs" (args.map g)).bind Value.asInt =
        (oneOperand "abs" args).bind Value.asInt := by
      rw [oneOperand_map]
      cases oneOperand "abs" args with
      | error f => rfl
      | ok v => exact hg.asInt
    simp only [compute, ho]
    cases (oneOperand "abs" args).bind Value.asInt with
    | error f => rfl
    | ok n => exact (integer_map hg _).symm
  | gt | lt | ge | le | numEq => simp only [compute, compare_map hg, map_mapError]
  | cons =>
    simp only [compute, twoOperands_map, map_mapError]
    cases twoOperands "cons" args with
    | error f => rfl
    | ok ab => exact congrArg Except.ok (hg.eq (.pair fresh ab.1 ab.2)).symm
  | car =>
    simp only [compute, pairOperand_map, map_mapError]
    cases pairOperand "CAR" args with
    | error f => rfl
    | ok v => exact congrArg (Except.mapError Halt.fault) (hg.first "CAR" v)
  | cdr =>
    simp only [compute, pairOperand_map, map_mapError]
    cases pairOperand "CDR" args with
    | error f => rfl
    | ok v => exact congrArg (Except.mapError Halt.fault) (hg.rest "CDR" fresh v)
  | list => exact congrArg Except.ok (hg.eq (.list fresh args)).symm
  | append =>
    simp only [compute, concat_map hg, map_mapError]
    cases concat args with
    | error f => rfl
    | ok vs => exact congrArg Except.ok (hg.eq (.list fresh vs)).symm
  | isList =>
    simp only [compute, oneOperand_map, map_mapError]
    cases oneOperand "list?" args with
    | error f => rfl
    | ok v => simp [Except.map, Except.mapError, hg.isList, hg.bool]
  | eq =>
    simp only [compute, twoOperands_map, map_mapError]
    cases twoOperands "eq?" args with
    | error f => rfl
    | ok ab => simp [Except.map, Except.mapError, hg.same hr, hg.bool]
  | equal =>
    simp only [compute, twoOperands_map, map_mapError]
    cases twoOperands "equal?" args with
    | error f => rfl
    | ok ab => simp [Except.map, Except.mapError, hg.equal, hg.bool]

end Primitive

/-! ### Callees -/

namespace Callee
open Value

/-- The callee with `h` applied to its forms. -/
def mapBody (h : Value → Value) : Callee → Callee
  | lambda name params body => lambda name params (body.map h)
  | c => c

private theorem spread_map (hg : Relabels r g h) (first : Value) (others : List Value) :
    spread (g first) (others.map g) = (spread first others).map (List.map g) := by
  induction others generalizing first with
  | nil => exact hg.asList first
  | cons next others ih =>
    rw [List.map_cons, spread, spread, ih]
    cases spread next others <;> rfl

/-- What `apply` calls is what it is given, with the elements of the last operand. -/
theorem resolve_apply {f first : Value} {others vs : List Value} (hp : f.isProcedure)
    (hs : spread first others = .ok vs) :
    resolve (.native .apply) (f :: first :: others) = resolve f vs := by
  rw [resolve, if_pos hp]
  split
  · next ws hw =>
    obtain rfl : ws = vs := Except.ok.inj (hw.symm.trans hs)
    rfl
  · next e he => cases he.symm.trans hs

theorem resolve_apply_of_error {f first : Value} {others : List Value} {e : Fault}
    (hp : f.isProcedure) (hs : spread first others = .error e) :
    resolve (.native .apply) (f :: first :: others) = .error (.fault e) := by
  rw [resolve, if_pos hp]
  split
  · next ws hw => cases hw.symm.trans hs
  · next e' he => exact congrArg (Except.error ∘ Halt.fault) (Except.error.inj (he.symm.trans hs))

theorem resolve_of_not_procedure {fn : Value} {args : List Value}
    (hf : fn.isProcedure = false) :
    resolve fn args =
      fn.inspect?.bind fun text => .error (.fault (.notApplicable text)) := by
  cases fn with
  | native f => cases hf
  | lambda i name params body => cases hf
  | _ =>
    unfold resolve
    rfl

/-- The procedure that a relabelled one hands its operands on to is the relabelled one. -/
theorem resolve_relabels (hg : Relabels r g h) (fn : Value) (args : List Value) :
    resolve (g fn) (args.map g) =
      (resolve fn args).map fun ca => (ca.1.mapBody h, ca.2.map g) := by
  have hnative : ∀ f, g (.native f) = .native f := fun f => hg.eq (.native f)
  fun_induction resolve fn args with
  | case1 args i name params body =>
    rw [hg.eq, relabel, resolve]
    rfl
  | case2 args p =>
    rw [hnative, resolve_primitive]
    rfl
  | case3 args =>
    rw [hnative, resolve_begin]
    rfl
  | case4 f first others hp vs hs ih =>
    have hs' : spread (g first) (others.map g) = .ok (vs.map g) := by
      rw [spread_map hg, hs]
      rfl
    rw [hnative, List.map_cons, List.map_cons, resolve_apply (hg.isProcedure.trans hp) hs']
    exact ih
  | case5 f first others hp e hs =>
    have hs' : spread (g first) (others.map g) = .error e := by
      rw [spread_map hg, hs]
      rfl
    rw [hnative, List.map_cons, List.map_cons,
      resolve_apply_of_error (hg.isProcedure.trans hp) hs']
    rfl
  | case6 f first others hp =>
    have hp' : ¬ (g f).isProcedure := by rwa [hg.isProcedure]
    rw [hnative, List.map_cons, List.map_cons, resolve, if_neg hp']
    rfl
  | case7 args hargs =>
    rcases args with _ | ⟨f, _ | ⟨first, others⟩⟩
    · rw [hnative, List.map_nil, resolve]
      · rfl
      · intro f first others h
        cases h
    · rw [hnative, List.map_cons, List.map_nil, resolve]
      · rfl
      · intro f first others h
        cases h
    · exact (hargs f first others rfl).elim
  | case8 args other hlambda hprimitive hbegin happly =>
    have hf : other.isProcedure = false :=
      isProcedure_eq_false_of_ne hlambda hprimitive hbegin happly
    rw [resolve_of_not_procedure (hg.isProcedure.trans hf), hg.inspect?]
    cases other.inspect? <;> rfl

end Callee

end DynamicLisp
