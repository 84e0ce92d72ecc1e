import DynamicLisp.Proofs.Value.Displayed
import DynamicLisp.Value.Equality

/-! Renaming of identities. A renaming gives the compound values inside a value other identities and
keeps everything else, so it shows in no text and to no equality of contents. -/
namespace DynamicLisp.Value

mutual

/-- The value with another identity for each that occurs in it. -/
def rename (r : Identity → Identity) : Value → Value
  | symbol i name => symbol (r i) name
  | text i s => text (r i) s
  | list i items => list (r i) (renameAll r items)
  | pair i a d => pair (r i) (a.rename r) (d.rename r)
  | lambda i name params body => lambda (r i) name params (renameAll r body)
  | v => v

/-- Several values, renamed. -/
def renameAll (r : Identity → Identity) : List Value → List Value
  | [] => []
  | v :: vs => v.rename r :: renameAll r vs

end

/-- The identity that a value has itself, if it is of a kind that has one. -/
def identity? : Value → Option Identity
  | symbol i _ | text i _ | list i _ | pair i _ _ | lambda i _ _ _ => some i
  | _ => none

/-- All identities inside a value are below `k`. -/
def IsBelow (k : Identity) (v : Value) : Prop :=
  ∀ w ∈ v.parts, ∀ i, w.identity? = some i → i < k

/-- The value without its identities: all are that of the reader. -/
def anonymous (v : Value) : Value :=
  v.rename fun _ => .reader

variable {r s : Identity → Identity} {k : Identity} {v w : Value}

private theorem renameAll_eq (r : Identity → Identity) (vs : List Value) :
    renameAll r vs = vs.map (rename r) := by
  induction vs with
  | nil => rfl
  | cons v vs ih => rw [renameAll, ih, List.map_cons]

@[simp]
theorem rename_list (r : Identity → Identity) (i : Identity) (items : List Value) :
    (list i items).rename r = list (r i) (items.map (rename r)) := by
  rw [rename, renameAll_eq]

@[simp]
theorem rename_lambda (r : Identity → Identity) (i : Identity) (name : String)
    (params : List String) (body : List Value) :
    (lambda i name params body).rename r = lambda (r i) name params (body.map (rename r)) := by
  rw [rename, renameAll_eq]

@[simp]
theorem rename_pair (r : Identity → Identity) (i : Identity) (a d : Value) :
    (pair i a d).rename r = pair (r i) (a.rename r) (d.rename r) := by
  rw [rename]

@[simp]
theorem rename_native (r : Identity → Identity) (f : Native) :
    (native f).rename r = native f := rfl

theorem rename_rename (r s : Identity → Identity) (v : Value) :
    (v.rename r).rename s = v.rename fun i => s (r i) := by
  induction v using structural with
  | list i items ih => simpa using ih
  | pair i a d iha ihd => simp [iha, ihd]
  | lambda i name params body ih => simpa using ih
  | _ => simp [rename]

theorem map_eq_self_iff {α : Type} {f : α → α} {l : List α} :
    l.map f = l ↔ ∀ a ∈ l, f a = a := by
  induction l with
  | nil => simp
  | cons a l ih => simp [ih]

/-- A renaming leaves a value alone just when it does so with the identities inside it. -/
theorem rename_eq_self_iff :
    v.rename r = v ↔ ∀ w ∈ v.parts, ∀ i, w.identity? = some i → r i = i := by
  induction v using structural with
  | list i items ih =>
    rw [forall_parts_list, rename_list, list.injEq, map_eq_self_iff]
    simp only [identity?, Option.some.injEq, forall_eq']
    exact and_congr_right fun _ => forall₂_congr ih
  | pair i a d iha ihd =>
    rw [forall_parts_pair, rename_pair, pair.injEq, iha, ihd]
    simp only [identity?, Option.some.injEq, forall_eq']
  | lambda i name params body ih =>
    rw [forall_parts_lambda, rename_lambda, lambda.injEq, map_eq_self_iff]
    simp only [identity?, Option.some.injEq, forall_eq', true_and]
    exact and_congr_right fun _ => forall₂_congr ih
  | _ => simp [rename, parts, identity?]

theorem IsBelow.rename_eq (h : v.IsBelow k) (hr : ∀ i < k, r i = i) : v.rename r = v := by
  rw [rename_eq_self_iff]
  exact fun w hw i hi => hr i (h w hw i hi)

theorem isBelow_of_rename_eq (h : v.rename r = v) (hr : ∀ i, r i = i → i < k) : v.IsBelow k := by
  rw [rename_eq_self_iff] at h
  exact fun w hw i hi => hr i (h w hw i hi)

/-! ### What a renaming keeps -/

@[simp]
theorem isProcedure_rename : (v.rename r).isProcedure = v.isProcedure := by
  cases v <;> rfl

@[simp]
theorem takesForms_rename : (v.rename r).takesForms = v.takesForms := by
  cases v <;> rfl

@[simp]
theorem isSymbol_rename : (v.rename r).isSymbol = v.isSymbol := by
  cases v <;> rfl

@[simp]
theorem isList_rename : (v.rename r).isList = v.isList := by
  cases v <;> rfl

@[simp]
theorem asInt_rename : (v.rename r).asInt = v.asInt := by
  cases v <;> rfl

@[simp]
theorem display_rename : (v.rename r).display = v.display := by
  induction v using structural with
  | list i items ih =>
    rw [rename_list, display, display, displays_eq, displays_eq, List.map_map]
    exact congrArg (fun ds => "(" ++ " ".intercalate ds ++ ")") (List.map_congr_left ih)
  | pair i a d iha ihd => rw [rename_pair, display, display, iha, ihd]
  | _ => simp [rename, display]

@[simp]
theorem inspect_rename : (v.rename r).inspect = v.inspect := by
  induction v using structural with
  | list i items ih =>
    rw [rename_list, inspect, inspect, inspections_eq, inspections_eq, List.map_map]
    exact congrArg (fun ds => "[" ++ ", ".intercalate ds ++ "]") (List.map_congr_left ih)
  | pair i a d iha ihd => rw [rename_pair, inspect, inspect, iha, ihd]
  | _ => simp [rename, inspect]

@[simp]
theorem isShowable_rename : (v.rename r).isShowable = v.isShowable := by
  induction v using structural with
  | list i items ih =>
    rw [Bool.eq_iff_iff, rename_list, isShowable_list, isShowable_list, List.forall_mem_map]
    exact forall₂_congr fun v hv => by rw [ih v hv]
  | pair i a d iha ihd => rw [rename_pair, isShowable, isShowable, iha, ihd]
  | _ => simp [rename, isShowable]

@[simp]
theorem display?_rename : (v.rename r).display? = v.display? := by
  rw [display?, display?, isShowable_rename, display_rename]

@[simp]
theorem inspect?_rename : (v.rename r).inspect? = v.inspect? := by
  rw [inspect?, inspect?, isShowable_rename, inspect_rename]

/-! ### Equality of contents -/

private theorem equalLists_iff {vs ws : List Value}
    (h : ∀ v ∈ vs, ∀ w, v.equal w ↔ v.anonymous = w.anonymous) :
    equalLists vs ws ↔ vs.map anonymous = ws.map anonymous := by
  induction vs generalizing ws with
  | nil => cases ws <;> simp [equalLists]
  | cons v vs ih =>
    obtain ⟨hv, hvs⟩ := List.forall_mem_cons.mp h
    cases ws with
    | nil => simp [equalLists]
    | cons w ws => simp [equalLists, hv w, ih hvs]

/-- Values are equal just when nothing but identities tells them apart. -/
theorem equal_iff : v.equal w ↔ v.anonymous = w.anonymous := by
  induction v using structural generalizing w with
  | list i items ih =>
    cases w with
    | list j items' =>
      simp only [equal, anonymous, rename_list, list.injEq, true_and]
      exact equalLists_iff ih
    | _ => simp [equal, anonymous, rename]
  | lambda i name params body ih =>
    cases w with
    | lambda j name' params' body' =>
      have hb : equalLists body body' ↔ body.map anonymous = body'.map anonymous :=
        equalLists_iff ih
      simp only [equal, Bool.and_eq_true, decide_eq_true_eq, hb, anonymous, rename_lambda,
        lambda.injEq, true_and, and_assoc]
      rfl
    | _ => simp [equal, anonymous, rename]
  | pair i a d iha ihd =>
    cases w with
    | pair j b e => simp [equal, iha, ihd, anonymous]
    | _ => simp [equal, anonymous, rename]
  | _ => cases w <;> simp [equal, anonymous, rename]

theorem anonymous_rename : (v.rename r).anonymous = v.anonymous :=
  rename_rename r _ v

theorem equal_refl (v : Value) : v.equal v := by
  rw [equal_iff]

/-- A renamed value equals the value that it was. -/
theorem equal_rename : v.equal (v.rename r) := by
  rw [equal_iff, anonymous_rename]

/-- Values that are equal have one display. -/
theorem display_eq_of_equal (h : v.equal w) : v.display = w.display := by
  rw [equal_iff] at h
  calc v.display = v.anonymous.display := display_rename.symm
    _ = w.anonymous.display := by rw [h]
    _ = w.display := display_rename

/-- Of two values that are equal none or both can be shown, and then with one text. -/
theorem display?_eq_of_equal (h : v.equal w) : v.display? = w.display? := by
  rw [equal_iff] at h
  calc v.display? = v.anonymous.display? := display?_rename.symm
    _ = w.anonymous.display? := by rw [h]
    _ = w.display? := display?_rename

theorem equal_rename_rename : (v.rename r).equal (w.rename s) = v.equal w := by
  rw [Bool.eq_iff_iff, equal_iff, equal_iff, anonymous_rename, anonymous_rename]

end DynamicLisp.Value
