import DynamicLisp.Proofs.Text.Line
import DynamicLisp.Proofs.Value.Displayed

/-! Values that are shown on one line. Where the names and foreign texts inside a value fit on one
line, so do its display and its inspection. -/
namespace DynamicLisp.Value
open Text
variable {v a d : Value} {i : Identity} {vs body : List Value} {x : String} {params : List String}

/-- The names and texts that a value shows by itself, apart from what is inside it. -/
def ownTexts : Value → List String
  | symbol _ name | text _ name | lambda _ name _ _ => [name]
  | _ => []

/-- All names of symbols and lambdas and all texts inside the value fit on one line. -/
def IsLined (v : Value) : Prop :=
  ∀ w ∈ v.parts, ∀ t ∈ w.ownTexts, IsLine t

theorem isLined_of_ownTexts_eq_nil (hp : v.parts = [v]) (ht : v.ownTexts = []) : v.IsLined := by
  refine forall_parts_of_eq hp ?_
  rw [ht]
  exact fun t hm => (List.not_mem_nil hm).elim

theorem isLined_symbol : (symbol i x).IsLined ↔ IsLine x := by
  simp [IsLined, parts, ownTexts]

theorem isLined_text : (text i x).IsLined ↔ IsLine x := by
  simp [IsLined, parts, ownTexts]

theorem isLined_list : (list i vs).IsLined ↔ ∀ v ∈ vs, v.IsLined :=
  forall_parts_list.trans (and_iff_right fun _ ht => (List.not_mem_nil ht).elim)

theorem isLined_pair : (pair i a d).IsLined ↔ a.IsLined ∧ d.IsLined :=
  forall_parts_pair.trans (and_iff_right fun _ ht => (List.not_mem_nil ht).elim)

theorem isLined_lambda :
    (lambda i x params body).IsLined ↔ IsLine x ∧ ∀ f ∈ body, f.IsLined :=
  forall_parts_lambda.trans (and_congr_left' List.forall_mem_singleton)

theorem IsLined.isLine_display (h : v.IsLined) : IsLine v.display := by
  induction v using structural with
  | list i items ih =>
    rw [display, displays_eq]
    have hitems : ∀ d ∈ items.map display, IsLine d :=
      List.forall_mem_map.mpr fun v hv => ih v hv (isLined_list.mp h v hv)
    exact (IsLine.append (by decide) (.intercalate (by decide) hitems)).append (by decide)
  | pair i a d iha ihd =>
    obtain ⟨ha, hd⟩ := isLined_pair.mp h
    rw [display]
    exact ((((by decide : IsLine "(").append (iha ha)).append (by decide)).append
      (ihd hd)).append (by decide)
  | bool b =>
    rw [display]
    cases b <;> decide
  | int n =>
    rw [display]
    exact isLine_writeInt n
  | symbol i x =>
    rw [display]
    exact isLined_symbol.mp h
  | text i s =>
    rw [display]
    exact (isLined_text.mp h).quoted
  | nil | native | lambda =>
    rw [display]
    decide

private theorem isLine_routine (f : Native) : IsLine f.routine := by
  cases f with
  | primitive p => cases p <;> decide
  | apply => decide
  | begin => decide

theorem IsLined.isLine_inspect (h : v.IsLined) : IsLine v.inspect := by
  induction v using structural with
  | list i items ih =>
    rw [inspect, inspections_eq]
    have hitems : ∀ d ∈ items.map inspect, IsLine d :=
      List.forall_mem_map.mpr fun v hv => ih v hv (isLined_list.mp h v hv)
    exact (IsLine.append (by decide) (.intercalate (by decide) hitems)).append (by decide)
  | pair i a d iha ihd =>
    obtain ⟨ha, hd⟩ := isLined_pair.mp h
    rw [inspect]
    exact ((((by decide : IsLine "Pair(").append (iha ha)).append (by decide)).append
      (ihd hd)).append (by decide)
  | bool b =>
    rw [inspect]
    cases b <;> decide
  | int n =>
    rw [inspect]
    exact isLine_writeInt n
  | nil =>
    rw [inspect]
    decide
  | native f =>
    rw [inspect]
    exact ((by decide : IsLine "<function ").append (isLine_routine f)).append (by decide)
  | symbol i x =>
    rw [inspect]
    exact ((by decide : IsLine "Symbol(").append (isLined_symbol.mp h).quoted).append (by decide)
  | text i s =>
    rw [inspect]
    exact (isLined_text.mp h).quoted
  | lambda i name params body =>
    rw [inspect]
    exact ((((by decide : IsLine "<Lambda ").append (isLined_lambda.mp h).1).append
      (by decide)).append (isLine_toString params.length)).append (by decide)

end DynamicLisp.Value
