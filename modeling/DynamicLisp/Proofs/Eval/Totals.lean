import Mathlib
import DynamicLisp.Proofs.Eval.Refusal

/-! Sums and products. Main statement: what a sum or a product comes to depends on the integers
among the operands and on nothing else, not even their order; and operands may be gathered in
groups, of which the sums or products are the operands of another one. Only the total is checked. -/
namespace DynamicLisp.Primitive

variable {p : Primitive} {fresh fresh' : Identity} {xs xs' ys ys' : List Value} {n : Int}

/-! ### The integers among operands -/

@[simp]
theorem integers_append (xs ys : List Value) :
    integers (xs ++ ys) = integers xs ++ integers ys :=
  List.filterMap_append

theorem integers_cons_of_not_isInteger {v : Value} (hv : v.isInteger = false) (xs : List Value) :
    integers (v :: xs) = integers xs := by
  cases v with
  | int n => cases hv
  | _ => rfl

/-! ### Totals -/

/-- A total of integers in any order is the same. -/
theorem total?_eq_of_perm (h : (integers xs).Perm (integers ys)) : p.total? xs = p.total? ys := by
  cases p with
  | add => exact congrArg some h.sum_eq
  | mul => exact congrArg some h.prod_eq
  | _ => rfl

/-- Operands may be put in for others with the same total. -/
theorem total?_append_congr (hx : p.total? xs = p.total? xs') (hy : p.total? ys = p.total? ys') :
    p.total? (xs ++ ys) = p.total? (xs' ++ ys') := by
  cases p with
  | add =>
    simp only [total?, Option.some.injEq, integers_append, List.sum_append] at hx hy ⊢
    rw [hx, hy]
  | mul =>
    simp only [total?, Option.some.injEq, integers_append, List.prod_append] at hx hy ⊢
    rw [hx, hy]
  | _ => rfl

/-- An integer is the total of itself. -/
theorem total?_singleton {t : Int} (h : p.total? xs = some t) : p.total? [.int n] = some n := by
  cases p with
  | add => exact congrArg some List.sum_singleton
  | mul => exact congrArg some List.prod_singleton
  | _ => cases h

theorem exists_total? (hp : p ∈ [add, mul]) (xs : List Value) : ∃ n, p.total? xs = some n := by
  cases p with
  | add | mul => exact ⟨_, rfl⟩
  | _ => simp at hp

theorem compute_congr_total? (hp : p ∈ [add, mul]) (h : p.total? xs = p.total? ys) :
    p.compute fresh xs = p.compute fresh' ys := by
  obtain ⟨n, hn⟩ := exists_total? hp ys
  rw [compute_of_total? hn, compute_of_total? (h.trans hn)]

/-- What a sum or a product gives has the same total as its operands. -/
theorem total?_of_compute (hp : p ∈ [add, mul]) {v : Value} (h : p.compute fresh xs = .ok v) :
    p.total? xs = p.total? [v] := by
  obtain ⟨n, hn⟩ := exists_total? hp xs
  rw [compute_of_total? hn] at h
  obtain ⟨_, rfl⟩ := integer_eq_ok h
  rw [hn, total?_singleton hn]

/-- A total in range is given, however great the totals of some of the operands are. -/
theorem compute_eq_ok_iff (h : p.total? xs = some n) :
    p.compute fresh xs = .ok (.int n) ↔ Value.inRange n := by
  rw [compute_of_total? h]
  exact ⟨fun hi => (integer_eq_ok hi).1, integer_of_inRange⟩

/-- Sums and products may be regrouped and reordered. What they come to depends only on the integers
among the operands, each as often as it occurs: not on the order of the operands, and not on those
that are no integers. Operands in two groups come to what the sums or products of the groups come
to; the total alone is checked. -/
theorem totals_regroup (i j : Identity) :
    ∀ p ∈ [add, mul],
      (∀ xs ys, (integers xs : Multiset Int) = integers ys → p.compute i xs = p.compute j ys) ∧
      (∀ xs ys : List Value, xs.Perm ys → p.compute i xs = p.compute j ys) ∧
      (∀ xs v ys, v.isInteger = false → p.compute i (xs ++ v :: ys) = p.compute j (xs ++ ys)) ∧
      (∀ xs ys v w, p.compute i xs = .ok v → p.compute j ys = .ok w →
        p.compute i (xs ++ ys) = p.compute j [v, w]) ∧
      ∀ xs n, p.total? xs = some n →
        (p.compute i xs = .ok (.int n) ↔ -2147483648 ≤ n ∧ n ≤ 2147483647) := by
  intro p hp
  refine ⟨fun xs ys h => ?_, fun xs ys h => ?_, fun xs v ys hv => ?_, fun xs ys v w hx hy => ?_,
    fun xs n h => ?_⟩
  · exact compute_congr_total? hp (total?_eq_of_perm (Multiset.coe_eq_coe.mp h))
  · exact compute_congr_total? hp (total?_eq_of_perm (h.filterMap _))
  · refine compute_congr_total? hp (total?_append_congr rfl (total?_eq_of_perm ?_))
    rw [integers_cons_of_not_isInteger hv]
  · have hxy := total?_append_congr (total?_of_compute hp hx) (total?_of_compute hp hy)
    exact compute_congr_total? hp hxy
  · rw [compute_eq_ok_iff h, Value.inRange_iff]

/-! Part of a sum is too great, and the whole is not. -/

theorem totals_regroup_partlyTooGreat :
    add.compute 0 [.int 2147483647, .int 1] = .error (.fault (.overflow 2147483648)) ∧
      add.compute 0 [.int 2147483647, .int 1, .bool true, .int (-5)] = .ok (.int 2147483643) ∧
      add.compute 0 [.int (-5), .int 2147483647, .int 1] = .ok (.int 2147483643) ∧
      add.compute 0 ([.int 2147483647, .nil] ++ [.int 1, .int (-5)]) =
        add.compute 0 [.int 2147483647, .int (-4)] := by
  obtain ⟨hmultiset, _, _, hgroups, hrange⟩ := totals_regroup 0 0 add (.head _)
  have hsum : add.compute 0 [.int 2147483647, .int 1, .bool true, .int (-5)] =
      .ok (.int 2147483643) :=
    (hrange _ 2147483643 rfl).mpr (by decide)
  have hw : Text.isWritable 2147483648 := Value.isWritable_of_natAbs_lt (by decide)
  refine ⟨integer_of_not_inRange (by decide) hw, hsum, ?_, hgroups _ _ _ _ rfl rfl⟩
  rw [← hsum]
  exact hmultiset _ _ (by decide)

end DynamicLisp.Primitive
