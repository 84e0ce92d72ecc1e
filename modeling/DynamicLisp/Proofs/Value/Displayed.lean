import Mathlib
import DynamicLisp.Proofs.Text.Written
import DynamicLisp.Proofs.Value.Parts
import DynamicLisp.Value.Rendering

/-! The texts that are displayed. What contains neither symbols nor foreign texts is displayed in a
small grammar, and it is displayed if the integers on its surface are short enough to be written. -/
namespace DynamicLisp

/-- The grammar of displays: truth values, nil, procedures, integers, and between parentheses any
number of displays or two with a dot between them. -/
inductive Displayed : String → Prop where
  | true : Displayed "true"
  | false : Displayed "false"
  | nil : Displayed "nil"
  | procedure : Displayed "#<procedure>"
  | integer {s : String} (h : Text.IsDecimal s) : Displayed s
  | list {ds : List String} (h : ∀ d ∈ ds, Displayed d) :
      Displayed ("(" ++ " ".intercalate ds ++ ")")
  | pair {a d : String} (ha : Displayed a) (hd : Displayed d) :
      Displayed ("(" ++ a ++ " . " ++ d ++ ")")

namespace Value

/-- Texts are foreign to the language. -/
def isText : Value → Bool
  | text .. => true
  | _ => false

theorem displays_eq (vs : List Value) : displays vs = vs.map display := by
  induction vs with
  | nil => rfl
  | cons v vs ih => rw [displays, ih, List.map_cons]

theorem inspections_eq (vs : List Value) : inspections vs = vs.map inspect := by
  induction vs with
  | nil => rfl
  | cons v vs ih => rw [inspections, ih, List.map_cons]

/-- Without symbols and foreign texts on the surface of a value, its display is in the grammar. -/
theorem displayed_display {v : Value} (h : ∀ w ∈ v.surface, w.isSymbol = false ∧ w.isText = false) :
    Displayed v.display := by
  induction v using structural with
  | list i items ih =>
    rw [surface_list] at h
    rw [display, displays_eq]
    refine .list fun d hd => ?_
    obtain ⟨v, hv, rfl⟩ := List.mem_map.mp hd
    exact ih v hv fun w hw => h w (.tail _ (List.mem_flatMap.mpr ⟨v, hv, hw⟩))
  | pair i a d iha ihd =>
    rw [surface_pair] at h
    rw [display]
    exact .pair (iha fun w hw => h w (.tail _ (List.mem_append_left _ hw)))
      (ihd fun w hw => h w (.tail _ (List.mem_append_right _ hw)))
  | bool b =>
    rw [display]
    cases b with
    | true => exact .true
    | false => exact .false
  | int n =>
    rw [display]
    exact .integer (Text.isDecimal_writeInt n)
  | nil =>
    rw [display]
    exact .nil
  | native | lambda =>
    rw [display]
    exact .procedure
  | symbol i x => cases (h _ (.head _)).1
  | text i s => cases (h _ (.head _)).2

/-! ### What can be shown -/

private theorem areShowable_iff (vs : List Value) : areShowable vs ↔ ∀ v ∈ vs, v.isShowable := by
  induction vs with
  | nil => simp [areShowable]
  | cons v vs ih => simp [areShowable, ih]

theorem isShowable_list {i : Identity} {items : List Value} :
    (list i items).isShowable ↔ ∀ v ∈ items, v.isShowable := by
  rw [isShowable, areShowable_iff]

/-- A value can be shown just when the integers on its surface can be written. -/
theorem isShowable_iff {v : Value} :
    v.isShowable ↔ ∀ n, .int n ∈ v.surface → Text.isWritable n := by
  induction v using structural with
  | list i items ih =>
    rw [isShowable_list, surface_list]
    simp only [List.mem_cons, reduceCtorEq, false_or, List.mem_flatMap]
    constructor
    · rintro h n ⟨v, hv, hn⟩
      exact (ih v hv).mp (h v hv) n hn
    · intro h v hv
      exact (ih v hv).mpr fun n hn => h n ⟨v, hv, hn⟩
  | pair i a d iha ihd =>
    rw [isShowable, Bool.and_eq_true, iha, ihd, surface_pair]
    simp only [List.mem_cons, reduceCtorEq, false_or, List.mem_append]
    exact ⟨fun h n hn => hn.elim (h.1 n) (h.2 n),
      fun h => ⟨fun n hn => h n (.inl hn), fun n hn => h n (.inr hn)⟩⟩
  | _ => simp [isShowable, surface]

theorem isWritable_of_natAbs_lt_pow {n : Int} {k : Nat} (h : n.natAbs < 10 ^ k)
    (hk : k ≤ Text.Numeral.maxDigits) : Text.isWritable n := by
  have hp : ∀ j, k ≤ j → n.natAbs < Nat.pow 10 j := fun j hj =>
    Nat.lt_of_lt_of_le h (Nat.pow_le_pow_right (by decide) hj)
  exact decide_eq_true (hp Text.Numeral.maxDigits hk)

theorem isWritable_of_natAbs_lt {n : Int} (h : n.natAbs < 10 ^ 10) : Text.isWritable n :=
  isWritable_of_natAbs_lt_pow h (by decide)

theorem isWritable_eq_false {n : Int} {k : Nat} (h : 10 ^ k ≤ n.natAbs)
    (hk : Text.Numeral.maxDigits ≤ k) : Text.isWritable n = false := by
  have hp : ∀ j ≤ k, ¬ n.natAbs < Nat.pow 10 j := fun j hj =>
    Nat.not_lt.mpr (Nat.le_trans (Nat.pow_le_pow_right (by decide) hj) h)
  exact decide_eq_false (hp Text.Numeral.maxDigits hk)

theorem natAbs_le_of_inRange {n : Int} (h : inRange n) : n.natAbs ≤ 2147483648 := by
  rw [inRange_iff] at h
  omega

theorem isWritable_of_inRange {n : Int} (h : inRange n) : Text.isWritable n := by
  have hn : n.natAbs ≤ 2147483648 := natAbs_le_of_inRange h
  exact isWritable_of_natAbs_lt (by omega)

/-- What is on the surface of a value is one of its parts. -/
theorem surface_subset_parts (v : Value) : v.surface ⊆ v.parts := by
  induction v using structural with
  | list i items ih =>
    rw [surface_list, parts_list]
    intro w hw
    rcases List.mem_cons.mp hw with rfl | hw
    · exact .head _
    · obtain ⟨v, hv, hw⟩ := List.mem_flatMap.mp hw
      exact .tail _ (List.mem_flatMap.mpr ⟨v, hv, ih v hv hw⟩)
  | pair i a d iha ihd =>
    rw [surface_pair, parts_pair]
    intro w hw
    rcases List.mem_cons.mp hw with rfl | hw
    · exact .head _
    · rcases List.mem_append.mp hw with hw | hw
      · exact .tail _ (List.mem_append_left _ (iha hw))
      · exact .tail _ (List.mem_append_right _ (ihd hw))
  | lambda i name params body ih =>
    intro w hw
    obtain rfl := List.mem_singleton.mp hw
    rw [parts_lambda]
    exact .head _
  | _ => exact List.Subset.refl _

end Value

end DynamicLisp
