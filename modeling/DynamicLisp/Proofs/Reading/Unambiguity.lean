import DynamicLisp.Proofs.Reading.RoundTrip

/-! What displays tell apart. Data are built from truth values, integers, nil, pairs and lists. Main
statement: the displays of two data are the same just when the data are equal. The display of a
datum is also that of a form, which reading gives back, and the form tells the datum: a pair becomes
a list with a dot in it, and no element of a list is displayed as a dot. -/
namespace DynamicLisp.Value

/-- What is built from truth values, integers in range, nil, pairs and lists. -/
inductive IsDatum : Value → Prop where
  | bool (b : Bool) : IsDatum (.bool b)
  | int {n : Int} (h : -2147483648 ≤ n ∧ n ≤ 2147483647) : IsDatum (.int n)
  | nil : IsDatum .nil
  | pair {i : Identity} {a d : Value} (ha : IsDatum a) (hd : IsDatum d) : IsDatum (.pair i a d)
  | list {i : Identity} {items : List Value} (h : ∀ v ∈ items, IsDatum v) : IsDatum (.list i items)

/-- The symbol that is displayed between the halves of a pair. -/
def dot : Value :=
  .symbol .reader "."

mutual

/-- The form that is displayed as a value is. -/
def asForm : Value → Value
  | bool b => .symbol .reader (if b then "true" else "false")
  | nil => .symbol .reader "nil"
  | pair i a d => .list i [a.asForm, dot, d.asForm]
  | list i items => .list i (asForms items)
  | v => v

/-- The forms that are displayed as several values are. -/
def asForms : List Value → List Value
  | [] => []
  | v :: vs => v.asForm :: asForms vs

end

variable {v w : Value}

@[simp]
theorem asForm_list (i : Identity) (items : List Value) :
    (list i items).asForm = list i (items.map asForm) := by
  have hall : ∀ vs : List Value, asForms vs = vs.map asForm := by
    intro vs
    induction vs with
    | nil => rfl
    | cons v vs ih => rw [asForms, ih, List.map_cons]
  rw [asForm, hall]

@[simp]
theorem asForm_pair (i : Identity) (a d : Value) :
    (pair i a d).asForm = list i [a.asForm, dot, d.asForm] := by
  rw [asForm]

theorem display_asForm (v : Value) : v.asForm.display = v.display := by
  induction v using structural with
  | list i items ih =>
    rw [asForm_list, display, display, displays_eq, displays_eq, List.map_map]
    exact congrArg (fun ds => "(" ++ " ".intercalate ds ++ ")") (List.map_congr_left ih)
  | pair i a d iha ihd =>
    have hdot : ∀ s t : String, " ".intercalate [s, ".", t] = s ++ " . " ++ t := by
      intro s t
      change s ++ " " ++ "." ++ " " ++ t = _
      have hd : " " ++ "." ++ " " = " . " := rfl
      rw [← hd, ← String.append_assoc, ← String.append_assoc]
    rw [asForm_pair, display, display, displays_eq]
    simp only [List.map_cons, List.map_nil, iha, ihd, dot, display, hdot, String.append_assoc]
  | bool b => simp [asForm, display]
  | nil => simp [asForm, display]
  | _ => rfl

theorem IsDatum.isForm (h : v.IsDatum) : v.asForm.IsForm := by
  induction h with
  | bool b =>
    cases b with
    | true => exact .symbol (Token.isName_of_ofPlain? (by decide) (by decide) (by decide))
    | false => exact .symbol (Token.isName_of_ofPlain? (by decide) (by decide) (by decide))
  | int h => exact .int h
  | nil => exact .symbol (Token.isName_of_ofPlain? (by decide) (by decide) (by decide))
  | pair _ _ iha ihd =>
    rw [asForm_pair]
    refine .list (List.forall_mem_cons.mpr ⟨iha, List.forall_mem_cons.mpr ⟨?_, ?_⟩⟩)
    · exact .symbol (Token.isName_of_ofPlain? (by decide) (by decide) (by decide))
    · exact List.forall_mem_singleton.mpr ihd
  | list h ih =>
    rw [asForm_list]
    exact .list (List.forall_mem_map.mpr ih)

theorem IsDatum.asForm_ne_dot (h : v.IsDatum) : v.asForm.anonymous ≠ dot := by
  cases h with
  | bool b => cases b <;> simp [asForm, anonymous, rename, dot]
  | pair | list => simp [anonymous, dot]
  | _ => simp [asForm, anonymous, rename, dot]

/-- The form of a pair is that of no list. -/
private theorem asForm_pair_ne {a d : Value} {items : List Value} (h : ∀ v ∈ items, v.IsDatum) :
    [a.asForm, dot, d.asForm].map anonymous ≠ (items.map asForm).map anonymous := by
  intro he
  have hm : dot ∈ (items.map asForm).map anonymous := by
    rw [← he]
    exact .tail _ (.head _)
  obtain ⟨f, hf, hd⟩ := List.mem_map.mp hm
  obtain ⟨v, hv, rfl⟩ := List.mem_map.mp hf
  exact (h v hv).asForm_ne_dot hd

private theorem map_anonymous_eq {vs ws : List Value}
    (h : ∀ v ∈ vs, ∀ w : Value, w.IsDatum → v.asForm.anonymous = w.asForm.anonymous →
      v.anonymous = w.anonymous) (hws : ∀ w ∈ ws, w.IsDatum)
    (he : (vs.map asForm).map anonymous = (ws.map asForm).map anonymous) :
    vs.map anonymous = ws.map anonymous := by
  induction vs generalizing ws with
  | nil =>
    cases ws with
    | nil => rfl
    | cons w ws => cases he
  | cons v vs ih =>
    cases ws with
    | nil => cases he
    | cons w ws =>
      obtain ⟨hv, hvs⟩ := List.forall_mem_cons.mp h
      obtain ⟨hw, hws⟩ := List.forall_mem_cons.mp hws
      obtain ⟨hhead, htail⟩ := List.cons.inj he
      rw [List.map_cons, List.map_cons, hv w hw hhead, ih hvs hws htail]

/-- The form tells the datum. -/
theorem IsDatum.anonymous_eq (hv : v.IsDatum) (hw : w.IsDatum)
    (h : v.asForm.anonymous = w.asForm.anonymous) : v.anonymous = w.anonymous := by
  induction hv generalizing w with
  | bool b => cases hw <;> cases b <;> simp_all [asForm, anonymous, rename]
  | int => cases hw <;> simp_all [asForm, anonymous, rename]
  | nil =>
    cases hw with
    | bool b => cases b <;> simp [asForm, anonymous, rename] at h
    | nil => rfl
    | _ => simp [asForm, anonymous, rename] at h
  | @pair i a d ha hd iha ihd =>
    cases hw with
    | @pair j b e hb he =>
      simp only [asForm_pair, anonymous, rename_list, List.map_cons, list.injEq, List.cons.injEq,
        true_and, and_true] at h
      rw [anonymous, anonymous, rename_pair, rename_pair]
      exact congrArg₂ (Value.pair .reader) (iha hb h.1) (ihd he h.2)
    | list hitems =>
      rw [asForm_pair, asForm_list, anonymous, anonymous, rename_list, rename_list] at h
      exact (asForm_pair_ne hitems (list.inj h).2).elim
    | _ => simp [asForm, anonymous, rename] at h
  | @list i items hitems ih =>
    cases hw with
    | pair hb he =>
      rw [asForm_pair, asForm_list, anonymous, anonymous, rename_list, rename_list] at h
      exact (asForm_pair_ne hitems (list.inj h).2.symm).elim
    | list hws =>
      rw [asForm_list, asForm_list, anonymous, anonymous, rename_list, rename_list] at h
      rw [anonymous, anonymous, rename_list, rename_list]
      exact congrArg (Value.list .reader)
        (map_anonymous_eq (fun v hv w hw he => ih v hv hw he) hws (list.inj h).2)
    | _ => simp [asForm, anonymous, rename] at h

/-- Data are read apart from their displays. -/
theorem IsDatum.equal_of_display_eq (hv : v.IsDatum) (hw : w.IsDatum)
    (h : v.display = w.display) : v.equal w := by
  have ht : v.asForm.tokens = w.asForm.tokens := by
    rw [← hv.isForm.ofText_display, ← hw.isForm.ofText_display, display_asForm, display_asForm, h]
  have hr := hv.isForm.read_tokens
  rw [ht, hw.isForm.read_tokens] at hr
  exact equal_iff.mpr (hv.anonymous_eq hw (Except.ok.inj (congrArg Reading.outcome hr)).symm)

/-- Integers in range are short enough to be written. -/
theorem IsDatum.isShowable (h : v.IsDatum) : v.isShowable := by
  induction h with
  | int h => exact isWritable_of_inRange (inRange_iff.mpr h)
  | pair _ _ iha ihd => rw [Value.isShowable, iha, ihd, Bool.and_self]
  | list _ ih => exact isShowable_list.mpr ih
  | _ => rfl

theorem IsDatum.display?_eq (h : v.IsDatum) : v.display? = .ok v.display :=
  if_pos h.isShowable

/-- Displays are unambiguous: data have displays, which are the same just when the data are equal;
and values of any kind that are equal have the same display. -/
theorem display_unambiguous :
    (∀ v w : Value, v.IsDatum → w.IsDatum →
      v.display? = .ok v.display ∧ (v.display = w.display ↔ v.equal w)) ∧
    ∀ v w : Value, v.equal w → v.display = w.display ∧ v.display? = w.display? := by
  refine ⟨fun v w hv hw => ⟨hv.display?_eq, ?_⟩,
    fun v w h => ⟨display_eq_of_equal h, display?_eq_of_equal h⟩⟩
  exact ⟨hv.equal_of_display_eq hw, display_eq_of_equal⟩

/-! Pairs and lists of the same parts are told apart, whatever objects they are. -/

abbrev dotted : Value :=
  .pair 1 (.bool true) (.list 2 [.int (-7), .pair 3 .nil (.list 4 [])])

abbrev dottedAgain : Value :=
  .pair 5 (.bool true) (.list 6 [.int (-7), .pair 7 .nil (.list 8 [])])

abbrev undotted : Value :=
  .list 1 [.bool true, .list 2 [.int (-7), .list 3 [.nil, .list 4 []]]]

theorem display_unambiguous_dotted :
    dotted.IsDatum ∧ dotted.display? = .ok "(true . (-7 (nil . ())))" ∧
      dotted.display = dottedAgain.display ∧ dotted.display ≠ undotted.display := by
  have hempty : ∀ i, (list i []).IsDatum := fun i => .list fun v hv => (List.not_mem_nil hv).elim
  have hpair : ∀ i j k l,
      (pair i (bool true) (list j [int (-7), pair k nil (list l [])])).IsDatum := by
    intro i j k l
    refine .pair (.bool true) (.list (List.forall_mem_cons.mpr ⟨.int (by decide), ?_⟩))
    exact List.forall_mem_singleton.mpr (.pair .nil (hempty l))
  have hundotted : undotted.IsDatum := by
    refine .list (List.forall_mem_cons.mpr ⟨.bool true, List.forall_mem_singleton.mpr ?_⟩)
    refine .list (List.forall_mem_cons.mpr ⟨.int (by decide), List.forall_mem_singleton.mpr ?_⟩)
    exact .list (List.forall_mem_cons.mpr ⟨.nil, List.forall_mem_singleton.mpr (hempty 4)⟩)
  obtain ⟨hdata, hequal⟩ := display_unambiguous
  have htext : dotted.display = "(true . (-7 (nil . ())))" := by cbv
  refine ⟨hpair 1 2 3 4, ?_, (hequal dotted dottedAgain rfl).1, fun h => ?_⟩
  · rw [(hdata dotted undotted (hpair 1 2 3 4) hundotted).1, htext]
  · cases (hdata dotted undotted (hpair 1 2 3 4) hundotted).2.mp h

end DynamicLisp.Value
