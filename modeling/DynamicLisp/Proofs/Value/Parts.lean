import DynamicLisp.Value.Size

/-! The values inside a value. `parts` goes into everything, also into the bodies of lambdas;
`surface` stays with what a program can take apart; `mentions` collects the names that symbols and
parameter lists bear. -/
namespace DynamicLisp.Value

theorem size_le_sizes {v : Value} {vs : List Value} (h : v ∈ vs) : v.size ≤ sizes vs := by
  induction h with
  | head vs => simp [sizes]
  | tail w _ ih => simp only [sizes]; omega

/-- Induction on the structure of values, for all items of a list or a body at once. -/
@[elab_as_elim]
theorem structural {P : Value → Prop}
    (list : ∀ id items, (∀ v ∈ items, P v) → P (.list id items))
    (pair : ∀ id a d, P a → P d → P (.pair id a d))
    (lambda : ∀ id name params body, (∀ v ∈ body, P v) → P (.lambda id name params body))
    (bool : ∀ b, P (.bool b)) (int : ∀ n, P (.int n)) (nil : P .nil) (native : ∀ f, P (.native f))
    (symbol : ∀ id name, P (.symbol id name)) (text : ∀ id s, P (.text id s)) : ∀ v, P v
  | .list id items => list id items fun v hv =>
      have := size_le_sizes hv
      structural list pair lambda bool int nil native symbol text v
  | .pair id a d => pair id a d (structural list pair lambda bool int nil native symbol text a)
      (structural list pair lambda bool int nil native symbol text d)
  | .lambda id name params body => lambda id name params body fun v hv =>
      have := size_le_sizes hv
      structural list pair lambda bool int nil native symbol text v
  | .bool b => bool b
  | .int n => int n
  | .nil => nil
  | .native f => native f
  | .symbol id name => symbol id name
  | .text id s => text id s
termination_by v => v.size
decreasing_by all_goals simp only [size]; omega

mutual

/-- A value and all values inside it, at any depth. -/
def parts : Value → List Value
  | list id items => list id items :: partsOfAll items
  | pair id a d => pair id a d :: (a.parts ++ d.parts)
  | lambda id name params body => lambda id name params body :: partsOfAll body
  | v => [v]

/-- The parts of several values. -/
def partsOfAll : List Value → List Value
  | [] => []
  | v :: vs => v.parts ++ partsOfAll vs

end

mutual

/-- A value and the elements of lists and halves of pairs inside it, at any depth. -/
def surface : Value → List Value
  | list id items => list id items :: surfaceOfAll items
  | pair id a d => pair id a d :: (a.surface ++ d.surface)
  | v => [v]

/-- The surfaces of several values. -/
def surfaceOfAll : List Value → List Value
  | [] => []
  | v :: vs => v.surface ++ surfaceOfAll vs

end

/-- The names that a value bears by itself, apart from what is inside it. -/
def ownNames : Value → List String
  | symbol _ name => [name]
  | lambda _ _ params _ => params
  | _ => []

/-- The names of all symbols inside a value, those of parameter lists included. -/
def mentions (v : Value) : List String :=
  v.parts.flatMap ownNames

private theorem partsOfAll_eq (vs : List Value) : partsOfAll vs = vs.flatMap parts := by
  induction vs with
  | nil => rfl
  | cons v vs ih => simp [partsOfAll, ih]

private theorem surfaceOfAll_eq (vs : List Value) : surfaceOfAll vs = vs.flatMap surface := by
  induction vs with
  | nil => rfl
  | cons v vs ih => simp [surfaceOfAll, ih]

@[simp]
theorem parts_list (id : Identity) (items : List Value) :
    (list id items).parts = list id items :: items.flatMap parts := by
  rw [parts, partsOfAll_eq]

@[simp]
theorem parts_lambda (id : Identity) (name : String) (params : List String) (body : List Value) :
    (lambda id name params body).parts = lambda id name params body :: body.flatMap parts := by
  rw [parts, partsOfAll_eq]

@[simp]
theorem parts_pair (id : Identity) (a d : Value) :
    (pair id a d).parts = pair id a d :: (a.parts ++ d.parts) := by rw [parts]

variable {P : Value → Prop}

/-- A value that has no part but itself. -/
theorem forall_parts_of_eq {v : Value} (h : v.parts = [v]) (hv : P v) : ∀ w ∈ v.parts, P w := by
  rw [h]
  exact List.forall_mem_singleton.mpr hv

/-- What holds of all parts of a list holds of the list and of all parts of its items. -/
theorem forall_parts_list {id : Identity} {items : List Value} :
    (∀ w ∈ (list id items).parts, P w) ↔
      P (list id items) ∧ ∀ v ∈ items, ∀ w ∈ v.parts, P w := by
  rw [parts_list, List.forall_mem_cons]
  simp only [List.mem_flatMap]
  exact and_congr_right fun _ => ⟨fun h v hv w hw => h w ⟨v, hv, hw⟩,
    fun h w ⟨v, hv, hw⟩ => h v hv w hw⟩

theorem forall_parts_lambda {id : Identity} {name : String} {params : List String}
    {body : List Value} : (∀ w ∈ (lambda id name params body).parts, P w) ↔
      P (lambda id name params body) ∧ ∀ v ∈ body, ∀ w ∈ v.parts, P w := by
  rw [parts_lambda, List.forall_mem_cons]
  simp only [List.mem_flatMap]
  exact and_congr_right fun _ => ⟨fun h v hv w hw => h w ⟨v, hv, hw⟩,
    fun h w ⟨v, hv, hw⟩ => h v hv w hw⟩

theorem forall_parts_pair {id : Identity} {a d : Value} :
    (∀ w ∈ (pair id a d).parts, P w) ↔
      P (pair id a d) ∧ (∀ w ∈ a.parts, P w) ∧ ∀ w ∈ d.parts, P w := by
  rw [parts_pair, List.forall_mem_cons, List.forall_mem_append]

@[simp]
theorem surface_list (id : Identity) (items : List Value) :
    (list id items).surface = list id items :: items.flatMap surface := by
  rw [surface, surfaceOfAll_eq]

@[simp]
theorem surface_pair (id : Identity) (a d : Value) :
    (pair id a d).surface = pair id a d :: (a.surface ++ d.surface) := by rw [surface]

theorem mem_surface_self (v : Value) : v ∈ v.surface := by
  cases v <;> exact .head _

/-- What holds on the whole surface of a list holds of the list and on the surfaces of its items. -/
theorem forall_surface_list {id : Identity} {items : List Value} :
    (∀ w ∈ (list id items).surface, P w) ↔
      P (list id items) ∧ ∀ v ∈ items, ∀ w ∈ v.surface, P w := by
  rw [surface_list, List.forall_mem_cons]
  simp only [List.mem_flatMap]
  exact and_congr_right fun _ => ⟨fun h v hv w hw => h w ⟨v, hv, hw⟩,
    fun h w ⟨v, hv, hw⟩ => h v hv w hw⟩

theorem forall_surface_pair {id : Identity} {a d : Value} :
    (∀ w ∈ (pair id a d).surface, P w) ↔
      P (pair id a d) ∧ (∀ w ∈ a.surface, P w) ∧ ∀ w ∈ d.surface, P w := by
  rw [surface_pair, List.forall_mem_cons, List.forall_mem_append]

/-- What can be taken out of a value that has been taken out can be taken out at once. -/
theorem surface_subset_of_mem {v w : Value} (h : w ∈ v.surface) : w.surface ⊆ v.surface := by
  induction v using structural with
  | list id items ih =>
    rw [surface_list] at h ⊢
    rcases List.mem_cons.mp h with rfl | h
    · rw [surface_list]
      exact List.Subset.refl _
    · obtain ⟨v, hv, hw⟩ := List.mem_flatMap.mp h
      exact fun u hu => .tail _ (List.mem_flatMap.mpr ⟨v, hv, ih v hv hw hu⟩)
  | pair id a d iha ihd =>
    rw [surface_pair] at h ⊢
    rcases List.mem_cons.mp h with rfl | h
    · rw [surface_pair]
      exact List.Subset.refl _
    · rcases List.mem_append.mp h with h | h
      · exact fun u hu => .tail _ (List.mem_append_left _ (iha h hu))
      · exact fun u hu => .tail _ (List.mem_append_right _ (ihd h hu))
  | _ =>
    obtain rfl := List.mem_singleton.mp h
    exact List.Subset.refl _

/-- A list mentions what its items mention. -/
@[simp]
theorem mentions_list (id : Identity) (items : List Value) :
    (list id items).mentions = items.flatMap mentions := by
  simp only [mentions, parts_list, List.flatMap_cons, ownNames, List.nil_append, List.flatMap_assoc]
  rfl

@[simp]
theorem mentions_pair (id : Identity) (a d : Value) :
    (pair id a d).mentions = a.mentions ++ d.mentions := by
  simp only [mentions, parts_pair, List.flatMap_cons, ownNames, List.nil_append,
    List.flatMap_append]

/-- A lambda mentions its parameters and what its body mentions; its own name is no symbol. -/
@[simp]
theorem mentions_lambda (id : Identity) (name : String) (params : List String) (body : List Value) :
    (lambda id name params body).mentions = params ++ body.flatMap mentions := by
  simp only [mentions, parts_lambda, List.flatMap_cons, ownNames, List.flatMap_assoc]
  rfl

end DynamicLisp.Value
