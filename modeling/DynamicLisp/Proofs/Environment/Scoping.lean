import DynamicLisp.Environment.Family
import DynamicLisp.Proofs.Environment.Names

/-! Scopes in a tree. The scopes of a family share the frames around them, so one definition can
change what a name means in many scopes: in all those from which one comes to the scope of the
definition, going outward, before any other that binds the name. Nothing else changes. -/
namespace DynamicLisp.Environment.Family

variable {fam : Family} {i j k : Nat} {x y : String} {f : Frame} {v : Value}

/-! ### Scopes and those around them -/

/-- The scope directly around a scope. -/
def outer? (fam : Family) (i : Nat) : Option Nat :=
  (fam.chain i)[1]?

/-- Going outward from one scope, one comes to another, and no scope left behind binds the name. -/
inductive Leads (fam : Family) (x : String) : Nat → Nat → Prop where
  | here (i : Nat) : Leads fam x i i
  | outward {i j k : Nat} (ho : fam.outer? j = some k) (hx : (fam.frame j).binds x = false)
      (h : Leads fam x k i) : Leads fam x j i

/-- Around each scope are those around the scope directly around it, which is older. -/
def IsTree (fam : Family) : Prop :=
  ∀ j k, fam.outer? j = some k → k < j ∧ fam.chain j = j :: fam.chain k

theorem chain_eq_cons (h : j < fam.size) : ∃ ks, fam.chain j = j :: ks := by
  have hs : fam.scopes[j]? = some fam.scopes[j] := List.getElem?_eq_getElem h
  exact ⟨fam.scopes[j].around, by rw [chain, hs]⟩

theorem chain_of_outer?_eq_none (hj : j < fam.size) (h : fam.outer? j = none) :
    fam.chain j = [j] := by
  obtain ⟨ks, hk⟩ := chain_eq_cons hj
  rw [outer?, hk] at h
  cases ks with
  | nil => exact hk
  | cons k ks => cases h

theorem lt_size_of_outer? (h : fam.outer? j = some k) : j < fam.size := by
  by_contra hn
  have hnone : fam.scopes[j]? = none := List.getElem?_eq_none (Nat.le_of_not_lt hn)
  rw [outer?, chain, hnone] at h
  cases h

/-- Going outward leads to older scopes. -/
theorem Leads.le (ht : fam.IsTree) (h : fam.Leads x j i) : i ≤ j := by
  induction h with
  | here i => exact Nat.le_refl i
  | outward ho _ _ ih => exact ih.trans (Nat.le_of_lt (ht _ _ ho).1)

/-- Induction outward from a scope, as far as a name is not bound. -/
theorem IsTree.outward_induction (ht : fam.IsTree) (x : String) {P : Nat → Prop}
    (found : ∀ j < fam.size, (fam.frame j).binds x → P j)
    (outermost : ∀ j < fam.size, (fam.frame j).binds x = false → fam.outer? j = none → P j)
    (outward : ∀ j < fam.size, ∀ k < fam.size, (fam.frame j).binds x = false →
      fam.outer? j = some k → P k → P j) : ∀ j < fam.size, P j := by
  intro j hj
  induction j using Nat.strong_induction_on with
  | _ j ih =>
    cases hx : (fam.frame j).binds x with
    | true => exact found j hj hx
    | false =>
      cases ho : fam.outer? j with
      | none => exact outermost j hj hx ho
      | some k =>
        have hk : k < j := (ht j k ho).1
        exact outward j hj k (hk.trans hj) hx ho (ih k hk (hk.trans hj))

/-! ### Finding a name -/

theorem find?_of_binds (hj : j < fam.size) (h : (fam.frame j).binds x) :
    fam.find? j x = some j := by
  obtain ⟨ks, hk⟩ := chain_eq_cons hj
  rw [find?, hk, List.find?_cons, h]

theorem find?_of_outer? (ht : fam.IsTree) (ho : fam.outer? j = some k)
    (h : (fam.frame j).binds x = false) : fam.find? j x = fam.find? k x := by
  rw [find?, (ht j k ho).2, List.find?_cons, h]
  rfl

theorem find?_of_outer?_eq_none (hj : j < fam.size) (ho : fam.outer? j = none)
    (h : (fam.frame j).binds x = false) : fam.find? j x = none := by
  rw [find?, chain_of_outer?_eq_none hj ho, List.find?_cons, h]
  rfl

/-- A name has the value that the scope in which it is found binds to it. -/
theorem lookup?_eq_find? (hj : j < fam.size) (x : String) :
    fam.lookup? j x = (fam.find? j x).bind fun k => (fam.frame k).lookup? x := by
  obtain ⟨ks, hk⟩ := chain_eq_cons hj
  have hf : (fam.environment j).frames = (fam.chain j).map fam.frame := by
    rw [frames, environment, hk]
    rfl
  rw [lookup?, Environment.lookup?, hf, find?]
  induction fam.chain j with
  | nil => rfl
  | cons k ks ih =>
    rw [List.map_cons, List.findSome?_cons, List.find?_cons, Frame.binds]
    cases hl : (fam.frame k).lookup? x with
    | none => exact ih
    | some v => exact hl.symm

/-! ### Definitions -/

theorem size_setFrame (fam : Family) (i : Nat) (f : Frame) : (fam.setFrame i f).size = fam.size :=
  List.length_modify ..

theorem chain_setFrame (fam : Family) (i : Nat) (f : Frame) :
    (fam.setFrame i f).chain = fam.chain := by
  funext j
  rw [chain, chain, setFrame, List.getElem?_modify]
  cases fam.scopes[j]? with
  | none => rfl
  | some s =>
    by_cases h : i = j <;> simp [h]

theorem frame_setFrame (hi : i < fam.size) (f : Frame) (j : Nat) :
    (fam.setFrame i f).frame j = if j = i then f else fam.frame j := by
  rw [frame, frame, setFrame, List.getElem?_modify]
  by_cases h : j = i
  · subst h
    have hs : fam.scopes[j]? = some fam.scopes[j] := List.getElem?_eq_getElem hi
    simp [hs]
  · have hn : i ≠ j := Ne.symm h
    cases fam.scopes[j]? with
    | none => simp [h]
    | some s => simp [h, hn]

theorem outer?_setFrame (fam : Family) (i : Nat) (f : Frame) :
    (fam.setFrame i f).outer? = fam.outer? := by
  funext j
  rw [outer?, outer?, chain_setFrame]

theorem IsTree.setFrame (ht : fam.IsTree) (i : Nat) (f : Frame) : (fam.setFrame i f).IsTree := by
  unfold IsTree
  rw [outer?_setFrame, chain_setFrame]
  exact ht

theorem size_define (fam : Family) (i : Nat) (x : String) (v : Value) :
    (fam.define i x v).size = fam.size :=
  size_setFrame fam i _

theorem outer?_define (fam : Family) (i : Nat) (x : String) (v : Value) :
    (fam.define i x v).outer? = fam.outer? :=
  outer?_setFrame fam i _

theorem IsTree.define (ht : fam.IsTree) (i : Nat) (x : String) (v : Value) :
    (fam.define i x v).IsTree :=
  ht.setFrame i _

theorem frame_define (hi : i < fam.size) (x : String) (v : Value) (j : Nat) :
    (fam.define i x v).frame j = if j = i then (fam.frame i).define x v else fam.frame j :=
  frame_setFrame hi _ j

/-- A definition is found from every scope that leads to it. -/
theorem find?_define_of_leads (ht : fam.IsTree) (hi : i < fam.size) (h : fam.Leads x j i)
    (v : Value) : (fam.define i x v).find? j x = some i := by
  induction h with
  | here i =>
    refine find?_of_binds (hi.trans_eq (size_define fam i x v).symm) ?_
    rw [frame_define hi, if_pos rfl, Frame.binds_define, decide_eq_true rfl, Bool.true_or]
  | @outward i j k ho hx h ih =>
    -- the scope of the definition is an older one, so the frame here is as it was
    have hlt : i < j := (h.le ht).trans_lt (ht j k ho).1
    have hf : (fam.define i x v).frame j = fam.frame j := by
      rw [frame_define hi, if_neg hlt.ne']
    have ho' : (fam.define i x v).outer? j = some k := by rw [outer?_define, ho]
    rw [find?_of_outer? (ht.define i x v) ho' (hf ▸ hx)]
    exact ih hi

/-- A definition changes what a frame binds only of the name defined, and only in its own scope. -/
theorem binds_define_of_not_leads (hi : i < fam.size) (h : ¬ (y = x ∧ fam.Leads x j i))
    (v : Value) : ((fam.define i x v).frame j).binds y = (fam.frame j).binds y := by
  rw [frame_define hi]
  split
  · next he =>
    subst he
    have hne : y ≠ x := fun he => h ⟨he, .here j⟩
    rw [Frame.binds_define, decide_eq_false hne, Bool.false_or]
  · rfl

/-- From other scopes, and for other names, what is found is found as before. -/
theorem find?_define_of_not_leads (ht : fam.IsTree) (hi : i < fam.size) (hj : j < fam.size)
    (h : ¬ (y = x ∧ fam.Leads x j i)) (v : Value) :
    (fam.define i x v).find? j y = fam.find? j y := by
  have hs := size_define fam i x v
  have ho := outer?_define fam i x v
  refine ht.outward_induction y (P := fun j => ¬ (y = x ∧ fam.Leads x j i) →
    (fam.define i x v).find? j y = fam.find? j y) ?_ ?_ ?_ j hj h
  · intro j hj hy h
    rw [find?_of_binds hj hy,
      find?_of_binds (hs ▸ hj) ((binds_define_of_not_leads hi h v).trans hy)]
  · intro j hj hy hn h
    rw [find?_of_outer?_eq_none hj hn hy, find?_of_outer?_eq_none (hs ▸ hj) (ho ▸ hn)
      ((binds_define_of_not_leads hi h v).trans hy)]
  · intro j hj k hk hy hjk ih h
    rw [find?_of_outer? ht hjk hy, find?_of_outer? (ht.define i x v) (ho ▸ hjk)
      ((binds_define_of_not_leads hi h v).trans hy)]
    refine ih ?_
    rintro ⟨rfl, hl⟩
    exact h ⟨rfl, .outward hjk hy hl⟩

/-- A scope in which a name is found leads to where it is bound. -/
theorem leads_of_find? (ht : fam.IsTree) (hj : j < fam.size) (h : fam.find? j x = some i) :
    fam.Leads x j i := by
  refine ht.outward_induction x (P := fun j => fam.find? j x = some i → fam.Leads x j i)
    ?_ ?_ ?_ j hj h
  · intro j hj hx h
    obtain rfl : j = i := Option.some.inj ((find?_of_binds hj hx).symm.trans h)
    exact .here j
  · intro j hj hx hn h
    rw [find?_of_outer?_eq_none hj hn hx] at h
    cases h
  · intro j hj k hk hx hjk ih h
    rw [find?_of_outer? ht hjk hx] at h
    exact .outward hjk hx (ih h)

theorem lookup?_define_of_leads (ht : fam.IsTree) (hi : i < fam.size) (hj : j < fam.size)
    (h : fam.Leads x j i) (v : Value) : (fam.define i x v).lookup? j x = some v := by
  rw [lookup?_eq_find? (hj.trans_eq (size_define fam i x v).symm), find?_define_of_leads ht hi h]
  rw [Option.bind_some, frame_define hi, if_pos rfl, Frame.lookup?_define, if_pos rfl]

theorem lookup?_define_of_not_leads (ht : fam.IsTree) (hi : i < fam.size) (hj : j < fam.size)
    (h : ¬ (y = x ∧ fam.Leads x j i)) (v : Value) :
    (fam.define i x v).lookup? j y = fam.lookup? j y := by
  rw [lookup?_eq_find? (hj.trans_eq (size_define fam i x v).symm), lookup?_eq_find? hj,
    find?_define_of_not_leads ht hi hj h]
  refine Option.bind_congr fun k hk => ?_
  rw [frame_define hi]
  split
  · next he =>
    subst he
    have hne : y ≠ x := by
      rintro rfl
      exact h ⟨rfl, leads_of_find? ht hj hk⟩
    rw [Frame.lookup?_define, if_neg hne]
  · rfl

/-! ### Growth -/

/-- A step in the growth of a family: a scope is added, outermost or inside another one, or names
are bound in one, a single name or several. -/
inductive Step where
  | root
  | child (i : Nat)
  | define (i : Nat) (name v : Value)
  | update (i : Nat) (items : List (Value × Value))

/-- Takes a step. -/
def take (fam : Family) : Step → Family × Except Halt Unit
  | .root => (fam.addRoot .empty, .ok ())
  | .child i => (fam.addChild i, .ok ())
  | .define i name v =>
    match (fam.frame i).bindName name v with
    | .ok f => (fam.setFrame i f, .ok ())
    | .error e => (fam, .error e)
  | .update i items =>
    (fam.setFrame i ((fam.frame i).update items).1, ((fam.frame i).update items).2)

/-- The scope that a step is about is one of the family. -/
def Step.Applies (fam : Family) : Step → Prop
  | .root => True
  | .child i | .define i _ _ | .update i _ => i < fam.size

instance (fam : Family) : (s : Step) → Decidable (s.Applies fam)
  | .root => inferInstanceAs (Decidable True)
  | .child i | .define i _ _ | .update i _ => inferInstanceAs (Decidable (i < fam.size))

/-- The names that a step defines in a scope, in order. -/
def Step.names (k : Nat) : Step → List String
  | .define i name v => if i = k then Frame.leadingNames [(name, v)] else []
  | .update i items => if i = k then Frame.leadingNames items else []
  | .root | .child _ => []

/-- Families with the steps in which they have grown. -/
inductive Grown : List Step → Family → Prop where
  | nothing : Grown [] .empty
  | step {steps : List Step} {fam : Family} (h : Grown steps fam) (s : Step) (hs : s.Applies fam) :
      Grown (steps ++ [s]) (fam.take s).1

/-- The family with one more scope. -/
abbrev add (fam : Family) (s : Scope) : Family :=
  ⟨fam.scopes ++ [s]⟩

private theorem getElem?_add (fam : Family) (s : Scope) (j : Nat) :
    (fam.add s).scopes[j]? = if j = fam.size then some s else fam.scopes[j]? := by
  split
  · next h =>
    subst h
    exact List.getElem?_concat_length
  · next h =>
    rcases Nat.lt_or_gt_of_ne h with hlt | hgt
    · exact List.getElem?_append_left hlt
    · have hn : fam.scopes[j]? = none := List.getElem?_eq_none (Nat.le_of_lt hgt)
      rw [hn]
      exact List.getElem?_eq_none (by simp; exact hgt)

theorem chain_add (fam : Family) (s : Scope) (j : Nat) :
    (fam.add s).chain j = if j = fam.size then j :: s.around else fam.chain j := by
  rw [chain, getElem?_add]
  by_cases h : j = fam.size
  · rw [if_pos h, if_pos h]
  · rw [if_neg h, if_neg h, chain]

/-- Directly around a new scope is the first of those around it; for others nothing changes. -/
theorem outer?_add (fam : Family) (s : Scope) (j : Nat) :
    (fam.add s).outer? j = if j = fam.size then s.around.head? else fam.outer? j := by
  rw [outer?, chain_add]
  split
  · rw [List.getElem?_cons_succ, List.head?_eq_getElem?]
  · rfl

theorem frame_add (fam : Family) (s : Scope) (j : Nat) :
    (fam.add s).frame j = if j = fam.size then s.frame else fam.frame j := by
  rw [frame, getElem?_add]
  by_cases h : j = fam.size
  · rw [if_pos h, if_pos h]
  · rw [if_neg h, if_neg h, frame]

theorem frame_add_empty (fam : Family) (js : List Nat) :
    (fam.add ⟨.empty, js⟩).frame = fam.frame := by
  funext j
  rw [frame_add]
  split
  · next h =>
    subst h
    have hn : fam.scopes[fam.size]? = none := List.getElem?_eq_none (Nat.le_refl _)
    rw [frame, hn]
  · rfl

theorem IsTree.add (ht : fam.IsTree) {js : List Nat}
    (hjs : js = [] ∨ ∃ i < fam.size, js = fam.chain i) (f : Frame) :
    (fam.add ⟨f, js⟩).IsTree := by
  intro j k ho
  rw [outer?_add] at ho
  rw [chain_add, chain_add]
  split at ho
  · next h =>
    subst h
    rcases hjs with rfl | ⟨i, hi, rfl⟩
    · cases ho
    · obtain ⟨ks, hk⟩ := chain_eq_cons hi
      rw [hk] at ho ⊢
      cases ho
      rw [if_pos rfl, if_neg hi.ne]
      exact ⟨hi, congrArg _ hk.symm⟩
  · next h =>
    have hk := ht j k ho
    rw [if_neg h, if_neg (hk.1.trans (lt_size_of_outer? ho)).ne]
    exact hk

theorem IsTree.take (ht : fam.IsTree) {s : Step} (hs : s.Applies fam) : (fam.take s).1.IsTree := by
  cases s with
  | root => exact ht.add (.inl rfl) _
  | child i => exact ht.add (.inr ⟨i, hs, rfl⟩) _
  | define i name v =>
    rw [Family.take]
    cases (fam.frame i).bindName name v with
    | ok f => exact ht.setFrame i f
    | error e => exact ht
  | update i items => exact ht.setFrame i _

theorem names_take {xs : List String} (h : (fam.frame k).names = xs.eraseDups) {s : Step}
    (hs : s.Applies fam) : ((fam.take s).1.frame k).names = (xs ++ s.names k).eraseDups := by
  cases s with
  | root =>
    have hf : (fam.take .root).1.frame = fam.frame := frame_add_empty fam []
    rw [hf, Step.names, List.append_nil, h]
  | child i =>
    have hf : (fam.take (.child i)).1.frame = fam.frame := frame_add_empty fam _
    rw [hf, Step.names, List.append_nil, h]
  | define i name v =>
    rw [Family.take, Step.names]
    rcases name.isSymbol_or with ⟨l, x, rfl⟩ | hn
    · have hf : ((fam.define i x v).frame k).names =
          (xs ++ if i = k then [x] else []).eraseDups := by
        rw [frame_define hs]
        by_cases hk : k = i
        · subst hk
          rw [if_pos rfl, if_pos rfl, Frame.names_define_eq h]
        · rw [if_neg hk, if_neg (Ne.symm hk), List.append_nil, h]
      exact hf
    · obtain ⟨e, he, _⟩ := Frame.exists_bindName_eq_error hn (fam.frame i) v
      rw [he, Frame.leadingNames_of_not_isSymbol hn, ite_self, List.append_nil]
      exact h
  | update i items =>
    rw [Family.take, frame_setFrame hs, Step.names]
    by_cases hk : k = i
    · subst hk
      rw [if_pos rfl, if_pos rfl, Frame.names_update h]
    · rw [if_neg hk, if_neg (Ne.symm hk), List.append_nil, h]

theorem Grown.isTree {steps : List Step} (h : Grown steps fam) : fam.IsTree := by
  induction h with
  | nothing => exact fun j k ho => nomatch ho
  | step h s hs ih => exact ih.take hs

theorem Grown.names {steps : List Step} (h : Grown steps fam) (k : Nat) :
    (fam.frame k).names = (steps.flatMap (·.names k)).eraseDups := by
  induction h with
  | nothing => rfl
  | step h s hs ih =>
    rw [List.flatMap_append, List.flatMap_singleton]
    exact names_take ih hs

/-! ### The law -/

theorem take_define (fam : Family) (i : Nat) (l : Identity) (x : String) (v : Value) :
    fam.take (.define i (.symbol l x) v) = (fam.define i x v, .ok ()) :=
  rfl

theorem exists_take_define_eq_error {name : Value} (h : name.isSymbol = false) (fam : Family)
    (i : Nat) (v : Value) :
    ∃ e, fam.take (.define i name v) = (fam, .error e) ∧
      ∀ text, name.describe? = .ok text → e = .fault (.nameNotSymbol text) := by
  obtain ⟨e, he, ht⟩ := Frame.exists_bindName_eq_error h (fam.frame i) v
  refine ⟨e, ?_, ht⟩
  rw [take, he]

theorem define_of_leads (ht : fam.IsTree) (hi : i < fam.size) (hj : j < fam.size)
    (h : fam.Leads x j i) (v : Value) (l : Identity) :
    ((fam.define i x v).environment j).lookup (.symbol l x) = .ok v ∧
      (fam.define i x v).find j (.symbol l x) = .ok (some i) := by
  have hv : ((fam.define i x v).environment j).lookup? x = some v :=
    lookup?_define_of_leads ht hi hj h v
  rw [lookup_symbol, hv, find_symbol, find?_define_of_leads ht hi h v]
  exact ⟨rfl, rfl⟩

theorem define_of_not_leads (ht : fam.IsTree) (hi : i < fam.size) (hj : j < fam.size)
    {name : Value} (h : ¬ ((∃ l, name = .symbol l x) ∧ fam.Leads x j i)) (v : Value) :
    ((fam.define i x v).environment j).lookup name = (fam.environment j).lookup name ∧
      (fam.define i x v).find j name = fam.find j name := by
  rcases name.isSymbol_or with ⟨l, y, rfl⟩ | hn
  · have hy : ¬ (y = x ∧ fam.Leads x j i) := by
      rintro ⟨rfl, hl⟩
      exact h ⟨⟨l, rfl⟩, hl⟩
    have hv : ((fam.define i x v).environment j).lookup? y = (fam.environment j).lookup? y :=
      lookup?_define_of_not_leads ht hi hj hy v
    rw [lookup_symbol, lookup_symbol, hv, find_symbol, find_symbol,
      find?_define_of_not_leads ht hi hj hy v]
    exact ⟨rfl, rfl⟩
  · cases name with
    | symbol l y => cases hn
    | _ => exact ⟨rfl, rfl⟩

/-- In a family that has grown in any way, a definition shows in the scopes that lead to it and
changes nothing else; under what is no symbol nothing can be defined. Frames list their names in
the order in which they were first defined. -/
theorem scoping_law {steps : List Step} (h : Grown steps fam) :
    (∀ i < fam.size, ∀ j < fam.size, ∀ l x v, ∀ name : Value,
      fam.take (.define i (.symbol l x) v) = (fam.define i x v, .ok ()) ∧
      ((∃ l', name = .symbol l' x) ∧ fam.Leads x j i →
        ((fam.define i x v).environment j).lookup name = .ok v ∧
          (fam.define i x v).find j name = .ok (some i)) ∧
      (¬ ((∃ l', name = .symbol l' x) ∧ fam.Leads x j i) →
        ((fam.define i x v).environment j).lookup name = (fam.environment j).lookup name ∧
          (fam.define i x v).find j name = fam.find j name)) ∧
    (∀ i v, ∀ name : Value, name.isSymbol = false →
      ∃ e, fam.take (.define i name v) = (fam, .error e) ∧
        ∀ text, name.describe? = .ok text → e = .fault (.nameNotSymbol text)) ∧
    (∀ i, (fam.frame i).names.Nodup ∧
      (fam.frame i).names = (steps.flatMap (·.names i)).eraseDups) := by
  have ht := h.isTree
  refine ⟨fun i hi j hj l x v name => ⟨take_define fam i l x v, ?_, ?_⟩,
    fun i v name hn => exists_take_define_eq_error hn fam i v, fun i => ⟨?_, h.names i⟩⟩
  · rintro ⟨⟨l', rfl⟩, hl⟩
    exact define_of_leads ht hi hj hl v l'
  · exact fun hl => define_of_not_leads ht hi hj hl v
  · rw [h.names i]
    exact Frame.nodup_eraseDups _

/-- Two scopes lie inside the same one, and one of them hides a name of the outermost scope. A
later definition of the name in the scope in the middle is seen from the other one only. The
scope in the middle has already got names from an update that broke off. -/
theorem scoping_law_of_siblings :
    ∃ steps fam, Grown steps fam ∧ steps.length = 7 ∧
      ((fam.define 1 "x" (.int 5)).environment 3).lookup (.symbol 8 "x") = .ok (.int 5) ∧
      ((fam.define 1 "x" (.int 5)).environment 2).lookup (.symbol 8 "x") = .ok (.int 2) ∧
      (fam.define 1 "x" (.int 5)).find 0 (.symbol 8 "x") = .ok (some 0) ∧
      fam.take (.define 1 (.int 7) .nil) = (fam, .error (.fault (.nameNotSymbol "7"))) ∧
      (fam.frame 1).names = ["b", "a"] := by
  have g := (((((((Grown.nothing.step .root trivial).step
    (.define 0 (.symbol 0 "x") (.int 1)) (by decide)).step
    (.child 0) (by decide)).step
    (.child 1) (by decide)).step
    (.child 1) (by decide)).step
    (.define 2 (.symbol 0 "x") (.int 2)) (by decide)).step
    (.update 1 [(.symbol 1 "b", .int 3), (.symbol 2 "a", .int 4), (.symbol 3 "b", .int 5),
      (.int 7, .nil), (.symbol 4 "c", .nil)]) (by decide))
  obtain ⟨hlaw, herror, hnames⟩ := scoping_law g
  have hseen := (hlaw 1 (by decide) 3 (by decide) 8 "x" (.int 5) (.symbol 8 "x")).2.1
    ⟨⟨8, rfl⟩, .outward rfl rfl (.here 1)⟩
  have hhidden := (hlaw 1 (by decide) 2 (by decide) 8 "x" (.int 5) (.symbol 8 "x")).2.2 <| by
    rintro ⟨_, h⟩
    cases h with
    | outward _ hx _ => cases hx
  have houter := (hlaw 1 (by decide) 0 (by decide) 8 "x" (.int 5) (.symbol 8 "x")).2.2 <| by
    rintro ⟨_, h⟩
    cases h with
    | outward ho _ _ => cases ho
  obtain ⟨e, he, ht⟩ := herror 1 .nil (.int 7) rfl
  refine ⟨_, _, g, rfl, hseen.1, hhidden.1, houter.2, ?_, (hnames 1).2⟩
  rw [he, ht "7" (by decide +kernel)]

end DynamicLisp.Environment.Family
