import DynamicLisp.Proofs.Value.Renaming

/-! What equality of contents means. Main statement: two values are equal just when they are built
alike from equal contents, whatever objects they are; a comparison that knows which values are one
object and looks no further there answers the same, and so does the equality of the host where
pairs, lambdas, symbols or nil are compared. -/
namespace DynamicLisp

namespace Value

/-- Two values of one kind with the same contents: the same number, truth value, text or name, the
same native, elements or halves that are congruent in turn, or the same name and parameters and
congruent bodies. -/
inductive Congruent : Value → Value → Prop where
  | bool (b : Bool) : Congruent (.bool b) (.bool b)
  | int (n : Int) : Congruent (.int n) (.int n)
  | nil : Congruent .nil .nil
  | native (f : Native) : Congruent (.native f) (.native f)
  | symbol (i j : Identity) (x : String) : Congruent (.symbol i x) (.symbol j x)
  | text (i j : Identity) (s : String) : Congruent (.text i s) (.text j s)
  | list (i j : Identity) {vs ws : List Value} (h : List.Forall₂ Congruent vs ws) :
      Congruent (.list i vs) (.list j ws)
  | pair (i j : Identity) {a b d e : Value} (ha : Congruent a b) (hd : Congruent d e) :
      Congruent (.pair i a d) (.pair j b e)
  | lambda (i j : Identity) (name : String) (params : List String) {body body' : List Value}
      (h : List.Forall₂ Congruent body body') :
      Congruent (.lambda i name params body) (.lambda j name params body')

variable {v w : Value} {vs ws : List Value}

theorem equalLists_iff_forall₂ : equalLists vs ws ↔ List.Forall₂ (fun v w => v.equal w) vs ws := by
  induction vs generalizing ws with
  | nil => cases ws <;> simp [equalLists]
  | cons v vs ih => cases ws <;> simp [equalLists, ih]

private theorem forall₂_congruent (h : ∀ v ∈ vs, ∀ w, v.equal w ↔ Congruent v w) :
    equalLists vs ws ↔ List.Forall₂ Congruent vs ws := by
  rw [equalLists_iff_forall₂]
  induction vs generalizing ws with
  | nil => simp
  | cons v vs ih =>
    obtain ⟨hv, hvs⟩ := List.forall_mem_cons.mp h
    cases ws with
    | nil => simp
    | cons w ws => rw [List.forall₂_cons, List.forall₂_cons, hv w, ih hvs]

/-- Equality of contents decides congruence. -/
theorem equal_iff_congruent : v.equal w ↔ Congruent v w := by
  induction v using structural generalizing w with
  | list i vs ih =>
    cases w with
    | list j ws =>
      rw [equal, forall₂_congruent ih]
      constructor
      · exact .list i j
      · rintro ⟨⟩
        assumption
    | _ => exact iff_of_false (by simp [equal]) (by rintro ⟨⟩)
  | pair i a d iha ihd =>
    cases w with
    | pair j b e =>
      rw [equal, Bool.and_eq_true, iha, ihd]
      constructor
      · rintro ⟨ha, hd⟩
        exact .pair i j ha hd
      · rintro ⟨⟩
        exact ⟨‹_›, ‹_›⟩
    | _ => exact iff_of_false (by simp [equal]) (by rintro ⟨⟩)
  | lambda i name params body ih =>
    cases w with
    | lambda j name' params' body' =>
      rw [equal, Bool.and_eq_true, Bool.and_eq_true, forall₂_congruent ih, decide_eq_true_eq,
        decide_eq_true_eq]
      constructor
      · rintro ⟨⟨rfl, rfl⟩, h⟩
        exact .lambda i j _ _ h
      · rintro ⟨⟩
        exact ⟨⟨rfl, rfl⟩, ‹_›⟩
    | _ => exact iff_of_false (by simp [equal]) (by rintro ⟨⟩)
  | _ =>
    constructor
    · intro h
      cases w <;> simp only [equal, decide_eq_true_eq, Bool.false_eq_true] at h
      all_goals
        try subst h
        constructor
    · rintro ⟨⟩
      simp [equal]

theorem equal_equivalence : Equivalence fun v w : Value => v.equal w where
  refl := equal_refl
  symm h := equal_iff.mpr (equal_iff.mp h).symm
  trans h k := equal_iff.mpr ((equal_iff.mp h).trans (equal_iff.mp k))

end Value

/-! ### Comparison of objects -/

/-- The kinds that bring their own rule to the equality of the host. -/
def Value.comparesItself : Value → Bool
  | pair .. | lambda .. | symbol .. | nil => true
  | _ => false

/-- Which values are one object. An object has one content, and each native is one object. -/
structure Sharing where
  one : Value → Value → Bool
  eq_of_one {v w : Value} (h : one v w) : v = w
  one_native (f : Native) : one (.native f) (.native f)

namespace Sharing
variable (S : Sharing)

mutual

/-- Comparison of two values by their contents. What is one object is not looked into, natives are
compared as objects only, and the bodies of lambdas as lists. -/
def compare : Value → Value → Bool
  | .list _ vs, .list _ ws => vs.length = ws.length && compareRow vs ws
  | .pair _ a d, .pair _ b e => (S.one a b || compare a b) && (S.one d e || compare d e)
  | .lambda _ name params body, .lambda _ name' params' body' =>
    name = name' && params = params' && (S.one (.list .reader body) (.list .reader body') ||
      body.length = body'.length && compareRow body body')
  | .bool a, .bool b => a = b
  | .int a, .int b => a = b
  | .nil, .nil => true
  | .symbol _ a, .symbol _ b => a = b
  | .text _ a, .text _ b => a = b
  | _, _ => false

/-- Comparison of two rows as far as both go. -/
def compareRow : List Value → List Value → Bool
  | v :: vs, w :: ws => (S.one v w || compare v w) && compareRow vs ws
  | _, _ => true

end

/-- Comparison of two objects. -/
def isEqual (v w : Value) : Bool :=
  S.one v w || S.compare v w

mutual

/-- Equality as the host has it. Truth values count as numbers, and lists are compared item by item
with the same equality; pairs, lambdas, symbols and nil have rules of their own. -/
def hostEqual : Value → Value → Bool
  | .pair i a d, .pair j b e => S.isEqual (.pair i a d) (.pair j b e)
  | .lambda _ name params body, .lambda _ name' params' body' =>
    name = name' && params = params' && S.isEqual (.list .reader body) (.list .reader body')
  | .symbol _ a, .symbol _ b => a = b
  | .nil, .nil => true
  | .bool a, .bool b => a = b
  | .bool a, .int n => a.toInt = n
  | .int n, .bool a => n = a.toInt
  | .int a, .int b => a = b
  | .text _ a, .text _ b => a = b
  | .native f, .native g => S.one (.native f) (.native g)
  | .list _ vs, .list _ ws => vs.length = ws.length && hostEqualRow vs ws
  | _, _ => false

/-- Equality of two rows as far as both go. -/
def hostEqualRow : List Value → List Value → Bool
  | v :: vs, w :: ws => (S.one v w || hostEqual v w) && hostEqualRow vs ws
  | _, _ => true

end

variable {S}

/-- Only objects that are different have to be compared by contents. -/
private theorem isEqual_of {v w : Value} (h : S.one v w = false → S.compare v w = v.equal w) :
    S.isEqual v w = v.equal w := by
  unfold isEqual
  cases ho : S.one v w with
  | true => rw [← S.eq_of_one ho, Value.equal_refl, Bool.true_or]
  | false => rw [h ho, Bool.false_or]

private theorem compareRow_eq {vs ws : List Value}
    (h : ∀ v ∈ vs, ∀ w, S.isEqual v w = v.equal w) :
    (vs.length = ws.length && S.compareRow vs ws) = Value.equalLists vs ws := by
  induction vs generalizing ws with
  | nil => cases ws <;> simp [compareRow, Value.equalLists]
  | cons v vs ih =>
    obtain ⟨hv, hvs⟩ := List.forall_mem_cons.mp h
    cases ws with
    | nil => simp [Value.equalLists]
    | cons w ws =>
      have hw : (S.one v w || S.compare v w) = v.equal w := hv w
      rw [Value.equalLists, ← ih hvs, compareRow, hw]
      simp [Bool.and_left_comm]

private theorem isEqual_list {i j : Identity} {vs ws : List Value}
    (h : ∀ v ∈ vs, ∀ w, S.isEqual v w = v.equal w) :
    S.isEqual (.list i vs) (.list j ws) = Value.equalLists vs ws := by
  have hc : S.compare (.list i vs) (.list j ws) = Value.equalLists vs ws := by
    rw [compare, compareRow_eq h]
  exact isEqual_of fun _ => hc

/-- Whatever the objects are, the comparison of objects is equality of contents. -/
theorem isEqual_eq {v w : Value} : S.isEqual v w = v.equal w := by
  induction v using Value.structural generalizing w with
  | list i vs ih =>
    cases w with
    | list j ws => exact isEqual_list fun v hv w => ih v hv
    | _ => exact isEqual_of fun _ => rfl
  | pair i a d iha ihd =>
    refine isEqual_of fun _ => ?_
    cases w with
    | pair j b e => exact congrArg₂ (· && ·) iha ihd
    | _ => rfl
  | lambda i name params body ih =>
    refine isEqual_of fun _ => ?_
    cases w with
    | lambda j name' params' body' =>
      have hb : S.isEqual (.list .reader body) (.list .reader body') =
          Value.equalLists body body' := isEqual_list fun v hv w => ih v hv
      exact congrArg (name = name' && params = params' && ·) hb
    | _ => rfl
  | native f =>
    refine isEqual_of fun ho => ?_
    cases w with
    | native g =>
      have hne : f ≠ g := by
        rintro rfl
        cases (S.one_native f).symm.trans ho
      exact (decide_eq_false hne).symm
    | _ => rfl
  | _ =>
    refine isEqual_of fun _ => ?_
    cases w <;> rfl

/-- Where one side compares itself, the host's equality is equality of contents. -/
theorem hostEqual_eq {v w : Value} (h : v.comparesItself ∨ w.comparesItself) :
    S.hostEqual v w = v.equal w := by
  cases v with
  | pair i a d =>
    cases w with
    | pair j b e => rw [hostEqual, isEqual_eq]
    | _ => rfl
  | lambda i name params body =>
    cases w with
    | lambda j name' params' body' => rw [hostEqual, isEqual_eq, Value.equal, Value.equal]
    | _ => rfl
  | symbol | nil => cases w <;> rfl
  | _ =>
    cases w with
    | pair | lambda | symbol | nil => rfl
    | _ => rcases h with h | h <;> cases h

end Sharing

namespace Value

/-- Equality of contents is structural equality: it holds of two values of one kind with the same
contents and of no others, so it is an equivalence, and no truth value equals a number. Which values
are one object does not matter to it, natives apart: neither other identities nor a comparison that
goes by objects change the answer. The equality of the host gives the same answer for pairs,
lambdas, symbols and nil. -/
theorem equal_structural :
    (∀ v w : Value, v.equal w ↔ v.Congruent w) ∧
    (Equivalence fun v w : Value => v.equal w) ∧
    (∀ b n, (bool b).equal (int n) = false ∧ (int n).equal (bool b) = false) ∧
    (∀ (r s : Identity → Identity) (v w : Value), (v.rename r).equal (w.rename s) = v.equal w) ∧
    (∀ (S : Sharing) (v w : Value), S.isEqual v w = v.equal w) ∧
    ∀ (S : Sharing) (v w : Value), v.comparesItself ∨ w.comparesItself →
      S.hostEqual v w = v.equal w :=
  ⟨fun _ _ => equal_iff_congruent, equal_equivalence, fun _ _ => ⟨rfl, rfl⟩,
    fun _ _ _ _ => equal_rename_rename, fun _ _ _ => Sharing.isEqual_eq,
    fun _ _ _ => Sharing.hostEqual_eq⟩

/-! A pair and its copy, of which the natives alone are the same objects, are equal for the host,
though it takes a truth value for a number. -/

abbrev apart : Sharing where
  one
    | native f, native g => f = g
    | _, _ => false
  eq_of_one := by
    intro v w h
    cases v with
    | native f =>
      cases w with
      | native g => rw [of_decide_eq_true h]
      | _ => cases h
    | _ => cases h
  one_native f := decide_eq_true rfl

abbrev original : Value :=
  .pair 1 (.lambda 2 "f" ["x"] [.list 3 [.symbol 4 "x", .bool true]]) (.native .apply)

abbrev copied : Value :=
  .pair 5 (.lambda 6 "f" ["x"] [.list 7 [.symbol 8 "x", .bool true]]) (.native .apply)

theorem equal_structural_copied :
    original.comparesItself ∧ apart.hostEqual original copied = original.equal copied ∧
      original.equal copied ∧ original.same copied = false ∧
      apart.hostEqual (bool true) (int 1) = true := by
  obtain ⟨_, _, _, _, _, hhost⟩ := equal_structural
  exact ⟨rfl, hhost apart original copied (.inl rfl), rfl, rfl, rfl⟩

end Value

end DynamicLisp
