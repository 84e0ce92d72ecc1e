import DynamicLisp.Proofs.Eval.Exactness
import DynamicLisp.Proofs.Eval.Ledger

/-! Lists. Main statement: `append` puts the elements of lists in a row, so lists form a free monoid
under it; `car`, `cdr` and `list` take a list apart and put it together again. No element is lost,
copied or put in another place, and what is no list is refused wherever it stands. -/
namespace DynamicLisp

namespace Value

/-- The elements of a list; no other value has any. -/
def elements : Value → List Value
  | list _ items => items
  | _ => []

variable {v : Value}

theorem eq_list_of_isList (h : v.isList) : ∃ i, v = .list i v.elements := by
  cases v with
  | list i items => exact ⟨i, rfl⟩
  | _ => cases h

theorem asList_of_isList (h : v.isList) : v.asList = .ok v.elements := by
  cases v with
  | list i items => rfl
  | _ => cases h

theorem asList_of_not_isList (h : v.isList = false) : v.asList = .error .notList := by
  cases v with
  | list i items => cases h
  | _ => rfl

end Value

namespace Primitive
variable {args xs ys : List Value} {v w : Value} {items : List Value}

/-! ### Rows of lists -/

theorem concat_cons_of_isList (h : v.isList) (args : List Value) :
    concat (v :: args) = (concat args).map (v.elements ++ ·) := by
  rw [concat, Value.asList_of_isList h]
  cases concat args <;> rfl

theorem concat_of_isList (h : ∀ v ∈ args, v.isList) :
    concat args = .ok (args.flatMap Value.elements) := by
  induction args with
  | nil => rfl
  | cons v args ih =>
    obtain ⟨hv, hargs⟩ := List.forall_mem_cons.mp h
    rw [concat_cons_of_isList hv, ih hargs, List.flatMap_cons]
    rfl

/-- What is no list is found wherever it stands. -/
theorem concat_of_not_isList (h : ∃ v ∈ args, v.isList = false) :
    concat args = .error .notList := by
  induction args with
  | nil =>
    obtain ⟨v, hv, _⟩ := h
    cases hv
  | cons w args ih =>
    cases hw : w.isList with
    | false =>
      rw [concat, Value.asList_of_not_isList hw]
      rfl
    | true =>
      obtain ⟨v, hv, hl⟩ := h
      rcases List.mem_cons.mp hv with rfl | hv
      · rw [hw] at hl
        cases hl
      · rw [concat_cons_of_isList hw, ih ⟨v, hv, hl⟩]
        rfl

/-- An empty list between operands adds nothing. -/
theorem concat_insert_empty (e : Identity) (xs ys : List Value) :
    concat (xs ++ .list e [] :: ys) = concat (xs ++ ys) := by
  induction xs with
  | nil =>
    rw [List.nil_append, List.nil_append, concat_cons_of_isList rfl]
    cases concat ys <;> rfl
  | cons x xs ih => rw [List.cons_append, List.cons_append, concat, concat, ih]

theorem append_of_isList (h : ∀ v ∈ args, v.isList) (fresh : Identity) :
    append.compute fresh args = .ok (.list fresh (args.flatMap Value.elements)) := by
  rw [compute, concat_of_isList h]
  rfl

theorem append_of_not_isList (h : ∃ v ∈ args, v.isList = false) (fresh : Identity) :
    append.compute fresh args = .error (.fault .notList) := by
  rw [compute, concat_of_not_isList h]
  rfl

theorem faults_append_iff {fresh : Identity} :
    Faults (append.compute fresh args) .notAList ↔ ∃ v ∈ args, v.isList = false := by
  by_cases h : ∃ v ∈ args, v.isList = false
  · rw [append_of_not_isList h, faults_error]
    exact iff_of_true rfl h
  · have hl : ∀ v ∈ args, v.isList := fun v hv =>
      eq_true_of_ne_false fun hn => h ⟨v, hv, hn⟩
    rw [append_of_isList hl]
    exact iff_of_false not_faults_ok h

theorem append_lists (i j fresh : Identity) (vs ws : List Value) :
    append.compute fresh [.list i vs, .list j ws] = .ok (.list fresh (vs ++ ws)) := by
  have h : ∀ v ∈ [Value.list i vs, .list j ws], v.isList :=
    List.forall_mem_cons.mpr ⟨rfl, List.forall_mem_singleton.mpr rfl⟩
  rw [append_of_isList h, List.flatMap_cons, List.flatMap_singleton]
  rfl

theorem append_insert_empty (fresh e : Identity) (xs ys : List Value) :
    append.compute fresh (xs ++ .list e [] :: ys) = append.compute fresh (xs ++ ys) := by
  rw [compute, compute, concat_insert_empty]

/-! ### What is left of a list -/

/-- What is left of a value after `cdr` has been taken of it several times; each time a new list has
the next of the identities. -/
def descend (fresh : List Identity) (v : Value) : Except Halt Value :=
  fresh.foldlM (fun w i => cdr.compute i [w]) v

theorem descend_list {ids : List Identity} (i : Identity) (h : ids.length ≤ items.length) :
    ∃ j, descend ids (.list i items) = .ok (.list j (items.drop ids.length)) := by
  induction ids generalizing i items with
  | nil => exact ⟨i, rfl⟩
  | cons k ids ih =>
    cases items with
    | nil => exact absurd h (Nat.not_succ_le_zero ids.length)
    | cons a items => exact ih k (Nat.le_of_succ_le_succ h)

theorem car_list {a : Value} (i : Identity) (h : items.head? = some a) (fresh : Identity) :
    car.compute fresh [.list i items] = .ok a := by
  cases items with
  | nil => cases h
  | cons b items =>
    cases h
    rfl

/-! ### Comparison -/

/-- A primitive that compares two values says yes. -/
def Affirms (p : Primitive) (v w : Value) : Prop :=
  ∀ fresh, p.compute fresh [v, w] = .ok (.bool true)

theorem eq_affirms_self (v : Value) : eq.Affirms v v := by
  intro fresh
  have hv : v.same v := Value.same_equivalence.refl v
  rw [compute, twoOperands, Except.map, hv]
  rfl

/-- The identity of a list does not matter to the comparison of contents. -/
theorem equal_affirms_list (i j : Identity) (items : List Value) :
    equal.Affirms (.list i items) (.list j items) := by
  intro fresh
  have hv : (Value.list i items).equal (.list j items) := Value.equal_refl (.list i items)
  rw [compute, twoOperands, Except.map, hv]
  rfl

/-- Lists form a free monoid. `append` refuses its operands if one of them is no list, wherever it
stands, and else gives a list of all their elements in order, each the same as it was. Operands in
two groups may be appended group by group, and an empty list among them changes nothing. A list that
is not empty comes of its first element and the rest. Whatever number of times `cdr` is taken of a
list, `car` then gives the element of that number, up to the end, where both are refused. -/
theorem lists_free_monoid :
    (∀ i args, (Faults (append.compute i args) .notAList ↔ ∃ v ∈ args, v.isList = false) ∧
      ((∀ v ∈ args, v.isList) → ∃ items, append.compute i args = .ok (.list i items) ∧
        items = args.flatMap Value.elements ∧
        List.Forall₂ eq.Affirms items (args.flatMap Value.elements))) ∧
    (∀ i j k l xs ys, (∀ v ∈ xs ++ ys, v.isList) → ∃ v w whole parts,
      append.compute i xs = .ok v ∧ append.compute j ys = .ok w ∧
      append.compute k (xs ++ ys) = .ok whole ∧ append.compute l [v, w] = .ok parts ∧
      equal.Affirms whole parts) ∧
    (∀ i e xs ys, append.compute i (xs ++ .list e [] :: ys) = append.compute i (xs ++ ys)) ∧
    (∀ v, v.isList → ∀ i e, ∃ w, append.compute i [.list e [], v] = .ok w ∧
      append.compute i [v, .list e []] = .ok w ∧ equal.Affirms w v) ∧
    (∀ v, v.isList → v.elements ≠ [] → ∀ i j k l, ∃ a d front w,
      car.compute i [v] = .ok a ∧ cdr.compute j [v] = .ok d ∧ list.compute k [a] = .ok front ∧
      append.compute l [front, d] = .ok w ∧ equal.Affirms v w) ∧
    ∀ v, v.isList → ∀ ids, ids.length ≤ v.elements.length → ∃ w, descend ids v = .ok w ∧
      (∀ a, v.elements[ids.length]? = some a →
        ∀ i, ∃ b, car.compute i [w] = .ok b ∧ eq.Affirms b a) ∧
      (ids.length = v.elements.length → ∀ i,
        Faults (car.compute i [w]) .expectedPair ∧ Faults (cdr.compute i [w]) .expectedPair) := by
  refine ⟨fun i args => ⟨faults_append_iff, fun h => ?_⟩, ?_, append_insert_empty, ?_, ?_, ?_⟩
  · exact ⟨_, append_of_isList h i, rfl, List.forall₂_same.mpr fun v _ => eq_affirms_self v⟩
  · intro i j k l xs ys h
    obtain ⟨hx, hy⟩ := List.forall_mem_append.mp h
    refine ⟨_, _, _, _, append_of_isList hx i, append_of_isList hy j, append_of_isList h k,
      append_lists i j l _ _, ?_⟩
    rw [List.flatMap_append]
    exact equal_affirms_list k l _
  · intro v hv i e
    obtain ⟨j, hj⟩ := Value.eq_list_of_isList hv
    refine ⟨.list i v.elements, ?_, ?_, ?_⟩
    · rw [hj, append_lists]
      rfl
    · rw [hj, append_lists, List.append_nil]
      rfl
    · rw [hj]
      exact equal_affirms_list i j _
  · intro v hv hne i j k l
    obtain ⟨n, hn⟩ := Value.eq_list_of_isList hv
    obtain ⟨a, items, he⟩ := List.exists_cons_of_ne_nil hne
    rw [hn, he]
    exact ⟨a, .list j items, .list k [a], _, rfl, rfl, rfl, append_lists k j l [a] items,
      equal_affirms_list n l (a :: items)⟩
  · intro v hv ids hl
    obtain ⟨n, hn⟩ := Value.eq_list_of_isList hv
    obtain ⟨j, hj⟩ := descend_list n hl
    refine ⟨_, (congrArg (descend ids) hn).trans hj,
      fun a ha i => ⟨a, ?_, eq_affirms_self a⟩, fun he i => ?_⟩
    · exact car_list j (List.head?_drop.trans ha) i
    · rw [he, List.drop_length]
      exact ⟨faults_error.mpr rfl, faults_error.mpr rfl⟩

/-! Three lists, one of them empty and one with a list and a pair in it, and an operand that is no
list but a pair. -/

abbrev mixed : List Value :=
  [.list 1 [.int 1, .list 2 []], .list 3 [], .list 4 [.pair 5 .nil (.bool true)]]

theorem lists_free_monoid_mixed :
    (∀ v ∈ mixed, v.isList) ∧
      append.compute 6 mixed =
        .ok (.list 6 [.int 1, .list 2 [], .pair 5 .nil (.bool true)]) ∧
      Faults (append.compute 6 (mixed ++ [.pair 7 (.int 2) (.list 8 [])])) .notAList ∧
      ∃ w, descend [7, 8] (.list 1 [.int 1, .list 2 []]) = .ok w ∧
        Faults (car.compute 9 [w]) .expectedPair := by
  obtain ⟨hfails, _, _, _, _, hdescend⟩ := lists_free_monoid
  have hl : ∀ v ∈ mixed, v.isList := by
    intro v hv
    fin_cases hv <;> rfl
  obtain ⟨_, happend, rfl, _⟩ := (hfails 6 mixed).2 hl
  obtain ⟨w, hw, _, hend⟩ := hdescend (.list 1 [.int 1, .list 2 []]) rfl [7, 8] (Nat.le_refl 2)
  refine ⟨hl, happend, (hfails _ _).1.mpr ⟨.pair 7 (.int 2) (.list 8 []), ?_, rfl⟩, w, hw, ?_⟩
  · exact List.mem_append_right mixed (.head [])
  · exact (hend rfl 9).1

end Primitive
end DynamicLisp
