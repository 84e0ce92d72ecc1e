import DynamicLisp.Eval.Callee
import DynamicLisp.Eval.Primitives

/-! What primitives yield and what calls come to. A primitive that succeeds gives a truth value, a
number in range, a part of an operand, or one new pair or list that holds operands or their parts;
and a chain of `apply` makes nothing but takes its last operands apart. -/
namespace DynamicLisp

namespace Primitive
variable {fresh : Identity} {args vs : List Value} {v : Value}

/-- The results that a primitive can have, by where they come from. -/
inductive Yields (fresh : Identity) (args : List Value) : Value → Prop where
  | truth (b : Bool) : Yields fresh args (.bool b)
  | number {n : Int} (h : Value.inRange n) : Yields fresh args (.int n)
  | joined {a d : Value} (h : args = [a, d]) : Yields fresh args (.pair fresh a d)
  | firstHalf {i : Identity} {a d : Value} (h : args = [.pair i a d]) : Yields fresh args a
  | secondHalf {i : Identity} {a d : Value} (h : args = [.pair i a d]) : Yields fresh args d
  | head {i : Identity} {a : Value} {items : List Value} (h : args = [.list i (a :: items)]) :
      Yields fresh args a
  | tail {i : Identity} {a : Value} {items : List Value} (h : args = [.list i (a :: items)]) :
      Yields fresh args (.list fresh items)
  | collected : Yields fresh args (.list fresh args)
  | concatenated {vs : List Value} (h : concat args = .ok vs) : Yields fresh args (.list fresh vs)

/-- A computation that may fail, followed by one that may: a value comes from both. -/
theorem bind_eq_ok {ε α β : Type} {x : Except ε α} {f : α → Except ε β} {b : β}
    (h : x.bind f = .ok b) : ∃ a, x = .ok a ∧ f a = .ok b := by
  cases x with
  | error e => cases h
  | ok a => exact ⟨a, rfl, h⟩

theorem map_eq_ok {ε α β : Type} {x : Except ε α} {f : α → β} {b : β}
    (h : x.map f = .ok b) : ∃ a, x = .ok a ∧ f a = b := by
  cases x with
  | error e => cases h
  | ok a => exact ⟨a, rfl, Except.ok.inj h⟩

theorem map_eq_error {ε α β : Type} {x : Except ε α} {f : α → β} {e : ε}
    (h : x.map f = .error e) : x = .error e := by
  cases x with
  | error e' => exact congrArg Except.error (Except.error.inj h)
  | ok a => cases h

theorem mapError_eq_ok {ε δ α : Type} {x : Except ε α} {f : ε → δ} {a : α}
    (h : x.mapError f = .ok a) : x = .ok a := by
  cases x with
  | error e => cases h
  | ok b => exact congrArg Except.ok (Except.ok.inj h)

theorem integer_eq_ok {n : Int} (h : integer n = .ok v) : Value.inRange n ∧ v = .int n := by
  obtain ⟨k, hk, rfl⟩ := map_eq_ok h
  simp only [Value.checked] at hk
  split at hk
  · next hn =>
    cases hk
    exact ⟨hn, rfl⟩
  · split at hk <;> cases hk

private theorem yields_integer {n : Int} (h : integer n = .ok v) : Yields fresh args v := by
  obtain ⟨hn, rfl⟩ := integer_eq_ok h
  exact .number hn

private theorem yields_compare {op : String} {test : Int → Int → Bool}
    (h : (compare op test args).mapError Halt.fault = .ok v) : Yields fresh args v := by
  obtain ⟨ab, _, hb⟩ := bind_eq_ok (mapError_eq_ok h)
  cases hb
  exact .truth _

private theorem twoOperands_eq_ok {op : String} {a b : Value}
    (h : twoOperands op args = .ok (a, b)) : args = [a, b] := by
  simp only [twoOperands] at h
  split at h <;> cases h
  rfl

private theorem pairOperand_eq_ok {op : String} (h : pairOperand op args = .ok v) : args = [v] := by
  simp only [pairOperand] at h
  split at h <;> cases h
  rfl

private theorem yields_first {op : String} {w : Value} (ha : args = [w]) (h : w.first op = .ok v) :
    Yields fresh args v := by
  simp only [Value.first] at h
  split at h <;> cases h
  · exact .firstHalf ha
  · exact .head ha

private theorem yields_rest {op : String} {w : Value} (ha : args = [w])
    (h : w.rest op fresh = .ok v) : Yields fresh args v := by
  simp only [Value.rest] at h
  split at h <;> cases h
  · exact .secondHalf ha
  · exact .tail ha

/-- Every value that a primitive computes is one of those that it can yield. -/
theorem yields_of_compute {p : Primitive} (h : p.compute fresh args = .ok v) :
    Yields fresh args v := by
  cases p with
  | add => exact yields_integer h
  | mul => exact yields_integer h
  | sub =>
    obtain ⟨ab, _, hn⟩ := bind_eq_ok h
    exact yields_integer hn
  | div =>
    obtain ⟨n, _, hn⟩ := bind_eq_ok h
    exact yields_integer hn
  | abs =>
    obtain ⟨n, _, hn⟩ := bind_eq_ok h
    exact yields_integer hn
  | gt => exact yields_compare h
  | lt => exact yields_compare h
  | ge => exact yields_compare h
  | le => exact yields_compare h
  | numEq => exact yields_compare h
  | cons =>
    obtain ⟨ab, ha, rfl⟩ := map_eq_ok (mapError_eq_ok h)
    exact .joined (twoOperands_eq_ok ha)
  | car =>
    obtain ⟨w, hw, hv⟩ := bind_eq_ok (mapError_eq_ok h)
    exact yields_first (pairOperand_eq_ok hw) hv
  | cdr =>
    obtain ⟨w, hw, hv⟩ := bind_eq_ok (mapError_eq_ok h)
    exact yields_rest (pairOperand_eq_ok hw) hv
  | list =>
    cases h
    exact .collected
  | append =>
    obtain ⟨vs, hvs, rfl⟩ := map_eq_ok (mapError_eq_ok h)
    exact .concatenated hvs
  | isList =>
    obtain ⟨w, _, rfl⟩ := map_eq_ok (mapError_eq_ok h)
    exact .truth _
  | eq =>
    obtain ⟨ab, _, rfl⟩ := map_eq_ok (mapError_eq_ok h)
    exact .truth _
  | equal =>
    obtain ⟨ab, _, rfl⟩ := map_eq_ok (mapError_eq_ok h)
    exact .truth _

/-- Concatenation keeps nothing but elements of its operands. -/
theorem mem_of_concat (h : concat args = .ok vs) (hv : v ∈ vs) :
    ∃ i items, Value.list i items ∈ args ∧ v ∈ items := by
  induction args generalizing vs with
  | nil =>
    cases h
    exact (List.not_mem_nil hv).elim
  | cons a args ih =>
    obtain ⟨items, hi, h⟩ := bind_eq_ok h
    obtain ⟨ws, hw, h⟩ := bind_eq_ok h
    cases h
    rcases List.mem_append.mp hv with hv | hv
    · cases a with
      | list i xs =>
        cases hi
        exact ⟨i, _, .head args, hv⟩
      | _ => cases hi
    · obtain ⟨i, xs, hx, hm⟩ := ih hw hv
      exact ⟨i, xs, .tail a hx, hm⟩

/-- What holds of truth values and of integers in range, and of lists and pairs just when it holds
of their elements, holds of what a primitive computes of such operands. -/
theorem forall_of_compute {P : Value → Prop} {p : Primitive} (bool : ∀ b, P (.bool b))
    (int : ∀ n, Value.inRange n → P (.int n))
    (list : ∀ {i vs}, P (.list i vs) ↔ ∀ v ∈ vs, P v)
    (pair : ∀ {i a d}, P (.pair i a d) ↔ P a ∧ P d) (hargs : ∀ a ∈ args, P a)
    (h : p.compute fresh args = .ok v) : P v := by
  cases yields_of_compute h with
  | truth b => exact bool b
  | number hn => exact int _ hn
  | joined ha =>
    subst ha
    exact pair.mpr ⟨hargs _ (.head _), hargs _ (.tail _ (.head _))⟩
  | firstHalf ha =>
    subst ha
    exact (pair.mp (hargs _ (.head _))).1
  | secondHalf ha =>
    subst ha
    exact (pair.mp (hargs _ (.head _))).2
  | head ha =>
    subst ha
    exact list.mp (hargs _ (.head _)) _ (.head _)
  | tail ha =>
    subst ha
    exact list.mpr fun w hw => list.mp (hargs _ (.head _)) w (.tail _ hw)
  | collected => exact list.mpr hargs
  | concatenated hvs =>
    refine list.mpr fun w hw => ?_
    obtain ⟨i, items, hi, hm⟩ := mem_of_concat hvs hw
    exact list.mp (hargs _ hi) w hm

end Primitive

namespace Callee
variable {P : Value → Prop} {first fn : Value} {others args vs : List Value} {callee : Callee}

/-- The callee that a procedure other than `apply` is. -/
def ofValue? : Value → Option Callee
  | .lambda _ name params body => some (.lambda name params body)
  | .native (.primitive p) => some (.primitive p)
  | .native .begin => some .begin
  | _ => none

@[simp]
theorem resolve_primitive (p : Primitive) (args : List Value) :
    resolve (.native (.primitive p)) args = .ok (.primitive p, args) := by
  rw [resolve]

@[simp]
theorem resolve_begin (args : List Value) : resolve (.native .begin) args = .ok (.begin, args) := by
  rw [resolve]

/-- Nothing is a procedure but lambdas and the natives. -/
theorem isProcedure_eq_false_of_ne {v : Value}
    (hlambda : ∀ i name params body, v ≠ .lambda i name params body)
    (hprimitive : ∀ p, v ≠ .native (.primitive p)) (hbegin : v ≠ .native .begin)
    (happly : v ≠ .native .apply) : v.isProcedure = false := by
  cases v with
  | lambda i name params body => exact (hlambda i name params body rfl).elim
  | native f =>
    cases f with
    | primitive p => exact (hprimitive p rfl).elim
    | begin => exact (hbegin rfl).elim
    | apply => exact (happly rfl).elim
  | _ => rfl

private theorem forall_of_spread (hl : ∀ i vs, P (.list i vs) → ∀ v ∈ vs, P v) (hf : P first)
    (ho : ∀ v ∈ others, P v) (h : spread first others = .ok vs) : ∀ v ∈ vs, P v := by
  induction others generalizing first vs with
  | nil =>
    cases first with
    | list i items =>
      cases h
      exact hl i _ hf
    | _ => cases h
  | cons next others ih =>
    obtain ⟨hnext, ho⟩ := List.forall_mem_cons.mp ho
    obtain ⟨ws, hs, rfl⟩ := Primitive.map_eq_ok h
    exact List.forall_mem_cons.mpr ⟨hf, ih hnext ho hs⟩

/-- What holds of the value applied and of the operands, and of the elements of lists with them,
holds of what is finally called and of its arguments; these are no greater than the operands. -/
theorem of_resolve (hl : ∀ i vs, P (.list i vs) → ∀ v ∈ vs, P v) (hf : P fn)
    (hargs : ∀ a ∈ args, P a) (h : resolve fn args = .ok (callee, vs)) :
    (∃ g, P g ∧ ofValue? g = some callee) ∧ (∀ v ∈ vs, P v) ∧
      Value.sizes vs ≤ Value.sizes args := by
  fun_induction resolve fn args with
  | case1 args i name params body =>
    cases h
    exact ⟨⟨_, hf, rfl⟩, hargs, Nat.le_refl _⟩
  | case2 args p =>
    cases h
    exact ⟨⟨_, hf, rfl⟩, hargs, Nat.le_refl _⟩
  | case3 args =>
    cases h
    exact ⟨⟨_, hf, rfl⟩, hargs, Nat.le_refl _⟩
  | case4 f first others hp ws hs ih =>
    obtain ⟨hfn, hrest⟩ := List.forall_mem_cons.mp hargs
    obtain ⟨hfirst, ho⟩ := List.forall_mem_cons.mp hrest
    obtain ⟨hg, hvs, hle⟩ := ih hfn (forall_of_spread hl hfirst ho hs) h
    have := sizes_spread hs
    refine ⟨hg, hvs, ?_⟩
    simp only [Value.sizes]
    omega
  | case5 | case6 | case7 => cases h
  | case8 args other =>
    cases hi : other.inspect? with
    | error e => simp [hi, bind, Except.bind] at h
    | ok text => simp [hi, bind, Except.bind, throw, throwThe, MonadExceptOf.throw] at h

end Callee

end DynamicLisp
