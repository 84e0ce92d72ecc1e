import DynamicLisp.Eval.Basic

/-! Rows of forms. A row in two parts is evaluated part by part, and the value of a row evaluated in
order is the last of its values. -/
namespace DynamicLisp.Eval
variable {ev : Value → Eval Value}

theorem each_append (es fs : List Value) :
    each ev (es ++ fs) = each ev es >>= fun vs => each ev fs >>= fun ws => pure (vs ++ ws) := by
  induction es with
  | nil => simp only [List.nil_append, each, pure_bind, bind_pure]
  | cons e es ih => simp only [List.cons_append, each, ih, bind_assoc, pure_bind]

/-- Keeping the last value comes to keeping all and taking the last of them. -/
theorem inOrder_eq_each (last : Value) (forms : List Value) :
    inOrder ev last forms = each ev forms >>= fun vs => pure (vs.getLastD last) := by
  induction forms generalizing last with
  | nil => simp only [inOrder, each, pure_bind, List.getLastD_nil]
  | cons form forms ih => simp only [inOrder, each, ih, bind_assoc, pure_bind, List.getLastD_cons]

theorem length_of_each {forms vs : List Value} {m m' : Machine}
    (h : (each ev forms).run m = (.ok vs, m')) : vs.length = forms.length := by
  induction forms generalizing m vs with
  | nil =>
    cases h
    rfl
  | cons form forms ih =>
    simp only [each, run_bind] at h
    split at h
    · next v m₁ _ =>
      split at h
      · next ws m₂ hws =>
        cases h
        exact congrArg (· + 1) (ih hws)
      · cases h
    · cases h

/-! ### Courses -/

section Courses
variable (ev)

/-- Evaluated one after the other from `m`, the forms give the values `vs` and lead to `m'`. -/
inductive Passes : List Value → Machine → List Value → Machine → Prop where
  | nil {m : Machine} : Passes [] m [] m
  | cons {f v : Value} {forms vs : List Value} {m m₁ m' : Machine}
      (hf : (ev f).run m = (.ok v, m₁)) (h : Passes forms m₁ vs m') :
      Passes (f :: forms) m (v :: vs) m'

/-- Evaluated one after the other from `m`, the forms give values up to one that halts with `e` and
leaves `m'` behind. -/
inductive Stops : List Value → Machine → Halt → Machine → Prop where
  | here {f : Value} {forms : List Value} {m m' : Machine} {e : Halt}
      (hf : (ev f).run m = (.error e, m')) : Stops (f :: forms) m e m'
  | later {f v : Value} {forms : List Value} {m m₁ m' : Machine} {e : Halt}
      (hf : (ev f).run m = (.ok v, m₁)) (h : Stops forms m₁ e m') : Stops (f :: forms) m e m'

end Courses

variable {forms vs : List Value} {m m' : Machine} {e : Halt}

theorem Passes.run_each (h : Passes ev forms m vs m') : (each ev forms).run m = (.ok vs, m') := by
  induction h with
  | nil => rfl
  | cons hf _ ih => simp only [each, run_bind, hf, ih, run_pure]

theorem Stops.run_each (h : Stops ev forms m e m') : (each ev forms).run m = (.error e, m') := by
  induction h with
  | here hf => simp only [each, run_bind, hf]
  | later hf _ ih => simp only [each, run_bind, hf, ih]

/-- Every row either stops or passes. -/
theorem stops_or_passes (ev : Value → Eval Value) (forms : List Value) (m : Machine) :
    (∃ e m', Stops ev forms m e m') ∨ ∃ vs m', Passes ev forms m vs m' := by
  induction forms generalizing m with
  | nil => exact .inr ⟨[], m, .nil⟩
  | cons form forms ih =>
    generalize hf : (ev form).run m = r
    obtain ⟨r, m₁⟩ := r
    cases r with
    | error e => exact .inl ⟨e, m₁, .here hf⟩
    | ok v =>
      rcases ih m₁ with ⟨e, m', h⟩ | ⟨vs, m', h⟩
      · exact .inl ⟨e, m', .later hf h⟩
      · exact .inr ⟨v :: vs, m', .cons hf h⟩

end DynamicLisp.Eval
