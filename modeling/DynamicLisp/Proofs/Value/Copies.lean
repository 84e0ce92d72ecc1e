import DynamicLisp.Proofs.Eval.Ledger
import DynamicLisp.Proofs.Eval.Relabelling

/-! Copies of syntax. The forms in the body of a lambda are copied when it is defined again, and so
are the lists, pairs and symbols of a form. Stripped of the identities of its syntax a value is
the same in all copies; what a program can tell apart keeps its identity. -/
namespace DynamicLisp.Value

/-- The identity of a part: as part of a form it has none of its own. -/
def partIdentity (form : Bool) (i : Identity) : Identity :=
  if form then .reader else i

mutual

/-- The value without the identities of its syntax: with all forms in bodies taken as forms, and the
value itself as well if `form` says so. Foreign texts and lambdas in a form evaluate to themselves
and keep their identities. -/
def strip (form : Bool) : Value → Value
  | symbol i x => symbol (partIdentity form i) x
  | list i items => list (partIdentity form i) (stripAll form items)
  | pair i a d => pair (partIdentity form i) (a.strip form) (d.strip form)
  | lambda i name params body => lambda i name params (stripAll true body)
  | v => v

/-- Several values, stripped. -/
def stripAll (form : Bool) : List Value → List Value
  | [] => []
  | v :: vs => v.strip form :: stripAll form vs

end

variable {form : Bool} {v w : Value}

private theorem stripAll_eq (form : Bool) (vs : List Value) :
    stripAll form vs = vs.map (strip form) := by
  induction vs with
  | nil => rfl
  | cons v vs ih => rw [stripAll, ih, List.map_cons]

@[simp]
theorem strip_list (form : Bool) (i : Identity) (items : List Value) :
    (list i items).strip form = list (partIdentity form i) (items.map (strip form)) := by
  rw [strip, stripAll_eq]

@[simp]
theorem strip_pair (form : Bool) (i : Identity) (a d : Value) :
    (pair i a d).strip form = pair (partIdentity form i) (a.strip form) (d.strip form) := by
  rw [strip]

@[simp]
theorem strip_lambda (form : Bool) (i : Identity) (name : String) (params : List String)
    (body : List Value) :
    (lambda i name params body).strip form = lambda i name params (body.map (strip true)) := by
  rw [strip, stripAll_eq]

theorem anonymous_strip (form : Bool) (v : Value) : (v.strip form).anonymous = v.anonymous := by
  induction v using structural generalizing form with
  | list i items ih =>
    rw [strip_list, anonymous, anonymous, rename_list, rename_list, List.map_map]
    exact congrArg (list .reader) (List.map_congr_left fun v hv => ih v hv form)
  | pair i a d iha ihd =>
    rw [strip_pair, anonymous, anonymous, rename_pair, rename_pair]
    exact congrArg₂ (pair .reader) (iha form) (ihd form)
  | lambda i name params body ih =>
    rw [strip_lambda, anonymous, anonymous, rename_lambda, rename_lambda, List.map_map]
    exact congrArg (lambda .reader name params) (List.map_congr_left fun v hv => ih v hv true)
  | _ => rfl

/-- Stripping leaves the identities of data alone. -/
theorem relabels_strip : Relabels id (strip false) (strip true) where
  eq v := by
    cases v with
    | list i items => exact strip_list false i items
    | pair i a d => exact strip_pair false i a d
    | lambda i name params body => exact strip_lambda false i name params body
    | _ => rfl
  anonymous := anonymous_strip false

/-- As a form, a value that has been stripped is what it was. -/
theorem strip_true_strip (form : Bool) (v : Value) : (v.strip form).strip true = v.strip true := by
  induction v using structural generalizing form with
  | list i items ih =>
    rw [strip_list, strip_list, strip_list, List.map_map]
    exact congrArg (list .reader) (List.map_congr_left fun v hv => ih v hv form)
  | pair i a d iha ihd =>
    rw [strip_pair, strip_pair, strip_pair]
    exact congrArg₂ (pair .reader) (iha form) (ihd form)
  | lambda i name params body ih =>
    rw [strip_lambda, strip_lambda, strip_lambda, List.map_map]
    exact congrArg (lambda i name params) (List.map_congr_left fun v hv => ih v hv true)
  | _ => rfl

/-- What evaluates to itself keeps its identity as a form. -/
theorem strip_true_of_isSelfEvaluating (hv : v.isSelfEvaluating) :
    v.strip true = v.strip false := by
  cases v with
  | symbol | list | pair => cases hv
  | _ => rfl

/-- Copies agree in whatever does not depend on identities. -/
theorem apply_eq_of_strip_eq {α : Type} {p : Value → α} (hp : ∀ u : Value, p u.anonymous = p u)
    (h : v.strip form = w.strip form) : p v = p w := by
  rw [← hp v, ← anonymous_strip form v, h, anonymous_strip, hp]

theorem equal_of_strip_eq (h : v.strip form = w.strip form) : v.equal w := by
  rw [equal_iff, ← anonymous_strip form v, h, anonymous_strip]

/-! ### Copies of a form -/

theorem eq_symbol_of_strip_eq {i : Identity} {x : String}
    (h : (symbol i x).strip form = w.strip form) : ∃ j, w = symbol j x := by
  cases w with
  | symbol j y =>
    obtain rfl := (symbol.inj h).2
    exact ⟨j, rfl⟩
  | list | pair | lambda => simp [strip] at h
  | _ => cases h

theorem eq_list_of_strip_eq {i : Identity} {items : List Value}
    (h : (list i items).strip form = w.strip form) :
    ∃ j items', w = list j items' ∧ items.map (strip form) = items'.map (strip form) := by
  rw [strip_list] at h
  cases w with
  | list j items' =>
    rw [strip_list] at h
    exact ⟨j, items', rfl, (list.inj h).2⟩
  | pair | lambda => simp at h
  | _ => cases h

theorem eq_pair_of_strip_eq {i : Identity} {a d : Value}
    (h : (pair i a d).strip form = w.strip form) : ∃ j b e, w = pair j b e := by
  rw [strip_pair] at h
  cases w with
  | pair j b e => exact ⟨j, b, e, rfl⟩
  | list | lambda => simp at h
  | _ => cases h

theorem eq_bool_of_strip_eq {b : Bool} (h : (bool b).strip form = w.strip form) : w = bool b := by
  cases w with
  | bool c =>
    cases h
    rfl
  | list | pair | lambda => simp [strip] at h
  | _ => cases h

/-! ### Forms of texts -/

theorem isSource_pair {i : Identity} {a d : Value} :
    (pair i a d).IsSource ↔ a.IsSource ∧ d.IsSource :=
  forall_surface_pair.trans (and_iff_right fun h => nomatch h)

/-- A form of a text has no identities but those of its syntax. -/
theorem IsSource.strip_eq (h : v.IsSource) : v.strip true = v.anonymous := by
  induction v using structural with
  | list i items ih =>
    rw [strip_list, anonymous, rename_list]
    exact congrArg (list .reader)
      (List.map_congr_left fun v hv => ih v hv (isSource_list.mp h v hv))
  | pair i a d iha ihd =>
    obtain ⟨ha, hd⟩ := isSource_pair.mp h
    rw [strip_pair, anonymous, rename_pair]
    exact congrArg₂ (pair .reader) (iha ha) (ihd hd)
  | lambda | text => cases h _ (mem_surface_self _) rfl
  | _ => rfl

private theorem isSource_anonymous : v.anonymous.IsSource ↔ v.IsSource := by
  induction v using structural with
  | list i items ih =>
    rw [anonymous, rename_list, isSource_list, isSource_list, List.forall_mem_map]
    exact forall₂_congr ih
  | pair i a d iha ihd =>
    rw [anonymous, rename_pair, isSource_pair, isSource_pair]
    exact and_congr iha ihd
  | lambda | text =>
    exact iff_of_false (fun h => by cases h _ (mem_surface_self _) rfl)
      fun h => by cases h _ (mem_surface_self _) rfl
  | symbol i x =>
    have hs : ∀ j, (symbol j x).IsSource := fun j => List.forall_mem_singleton.mpr Bool.noConfusion
    exact iff_of_true (hs .reader) (hs i)
  | _ => exact Iff.rfl

/-- Copies of the forms of a text differ in the identities of their syntax alone. -/
theorem map_strip_eq_of_isSource {vs ws : List Value} (hvs : ∀ v ∈ vs, v.IsSource)
    (h : vs.map anonymous = ws.map anonymous) : vs.map (strip true) = ws.map (strip true) := by
  have hws : ∀ w ∈ ws, w.IsSource := by
    intro w hw
    have hm : w.anonymous ∈ vs.map anonymous := h ▸ List.mem_map.mpr ⟨w, hw, rfl⟩
    obtain ⟨v, hv, he⟩ := List.mem_map.mp hm
    exact isSource_anonymous.mp (he ▸ isSource_anonymous.mpr (hvs v hv))
  rw [List.map_congr_left fun v hv => (hvs v hv).strip_eq, h,
    List.map_congr_left fun w hw => ((hws w hw).strip_eq).symm]

end DynamicLisp.Value
