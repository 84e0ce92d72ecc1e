import Mathlib
import DynamicLisp.Proofs.Session.Life
import DynamicLisp.Proofs.Value.Parts

/-! Visible definitions. Data of a session contain no symbols, so evaluating data once more defines
nothing, and what a call defines goes with its scope. What is left are the definitions that one can
see in a form, outside the bodies of function definitions. -/
namespace DynamicLisp

namespace Value
open Eval

/-- The name that stands first in a definition: itself, or at the head of a parameter list. -/
def announced? : Value → Option String
  | symbol _ x => some x
  | list _ (symbol _ x :: _) => some x
  | _ => none

/-- The name that a form defines, if its head is `define`. -/
def target? : Value → Option String
  | list _ (head :: operand :: _) =>
    if Special.ofHead? head = some .define then operand.announced? else none
  | _ => none

/-- Whether the items of a list make up the definition of a function. -/
def areFunctionDefinition : List Value → Bool
  | head :: list _ _ :: _ => Special.ofHead? head = some .define
  | _ => false

mutual

/-- A form and its sub-forms at any depth, but for what is inside the definition of a function. -/
def visible : Value → List Value
  | list i items => list i items :: if areFunctionDefinition items then [] else visibleOfAll items
  | v => [v]

/-- What is visible of several forms. -/
def visibleOfAll : List Value → List Value
  | [] => []
  | v :: vs => v.visible ++ visibleOfAll vs

end

private theorem visibleOfAll_eq (vs : List Value) : visibleOfAll vs = vs.flatMap visible := by
  induction vs with
  | nil => rfl
  | cons v vs ih => simp [visibleOfAll, ih]

theorem visible_list (i : Identity) (items : List Value) :
    (list i items).visible =
      list i items :: if areFunctionDefinition items then [] else items.flatMap visible := by
  rw [visible, visibleOfAll_eq]

theorem mem_visible_self (f : Value) : f ∈ f.visible := by
  cases f with
  | list i items =>
    rw [visible_list]
    exact .head _
  | _ => exact .head _

theorem mem_visible_list {i : Identity} {items : List Value} {f d : Value}
    (hi : areFunctionDefinition items = false) (hf : f ∈ items) (hd : d ∈ f.visible) :
    d ∈ (list i items).visible := by
  rw [visible_list, hi]
  exact .tail _ (List.mem_flatMap.mpr ⟨f, hf, hd⟩)

/-- What is visible in a form is in its surface. -/
theorem surface_subset_of_mem_visible {v d : Value} (hd : d ∈ v.visible) :
    d.surface ⊆ v.surface := by
  induction v using structural with
  | list i items ih =>
    rw [visible_list] at hd
    rcases List.mem_cons.mp hd with rfl | hd
    · exact List.Subset.refl _
    · split at hd
      · exact (List.not_mem_nil hd).elim
      · obtain ⟨f, hf, hd⟩ := List.mem_flatMap.mp hd
        intro w hw
        rw [surface_list]
        exact .tail _ (List.mem_flatMap.mpr ⟨f, hf, ih f hf hd hw⟩)
  | _ =>
    obtain rfl := List.mem_singleton.mp hd
    exact List.Subset.refl _

/-- A form that defines something has a symbol as its head. -/
theorem isSymbol_mem_surface_of_target? {d : Value} {x : String} (h : d.target? = some x) :
    ∃ w ∈ d.surface, w.isSymbol := by
  simp only [target?] at h
  split at h
  · next i head operand operands =>
    split at h
    · next hs =>
      refine ⟨head, ?_, isSymbol_of_ofHead? hs⟩
      rw [surface_list]
      refine .tail _ (List.mem_flatMap.mpr ⟨head, .head _, ?_⟩)
      cases head with
      | symbol j y => exact .head _
      | _ => cases hs
    · cases h
  · cases h

theorem areFunctionDefinition_eq_false {head : Value} {operands : List Value}
    (h : Special.ofHead? head ≠ some .define) :
    areFunctionDefinition (head :: operands) = false := by
  simp only [areFunctionDefinition]
  split
  · exact decide_eq_false (by simp_all)
  · rfl

end Value

/-- The discipline of programs whose data contain no symbols. A form defines what the definitions
visible in it announce. -/
def Discipline.symbolFree : Discipline where
  name _ := True
  data v := ∀ w ∈ v.surface, w.isSymbol = false
  form _ := True
  defines f x := ∃ d ∈ f.visible, d.target? = some x
  bool _ := List.forall_mem_singleton.mpr rfl
  int _ := List.forall_mem_singleton.mpr rfl
  nil := List.forall_mem_singleton.mpr rfl
  list := by
    intro i vs
    rw [Value.surface_list, List.forall_mem_cons]
    simp only [List.mem_flatMap]
    exact ⟨fun h v hv w hw => h.2 w ⟨v, hv, hw⟩, fun h => ⟨rfl, fun w ⟨v, hv, hw⟩ => h v hv w hw⟩⟩
  pair := by
    intro i a d
    rw [Value.surface_pair, List.forall_mem_cons, List.forall_mem_append]
    exact ⟨And.right, fun h => ⟨rfl, h⟩⟩
  lambda := ⟨fun _ => ⟨fun _ _ => trivial, fun _ _ => trivial⟩,
    fun _ => List.forall_mem_singleton.mpr rfl⟩
  form_of_data _ := trivial
  symbol _ := trivial
  items _ _ _ := trivial
  atom := by
    intro v _ hv
    cases v with
    | symbol | list | pair => cases hv
    | _ => exact List.forall_mem_singleton.mpr rfl
  defines_variable := by
    intro i j head x body hs
    exact ⟨.list i (head :: .symbol j x :: body), Value.mem_visible_self _, if_pos hs⟩
  defines_value := by
    rintro i j head f x y hs ⟨d, hd, ht⟩
    exact ⟨d, Value.mem_visible_list rfl (.tail _ (.tail _ (.head _))) hd, ht⟩
  defines_function := by
    intro i j k head x params body hs
    exact ⟨.list i (head :: .list j (.symbol k x :: params) :: body), Value.mem_visible_self _,
      if_pos hs⟩
  defines_item := by
    rintro i head f operands x hs hf ⟨d, hd, ht⟩
    exact ⟨d, Value.mem_visible_list (Value.areFunctionDefinition_eq_false hs) hf hd, ht⟩
  defines_of_data := by
    -- a definition among the data would bring its head with it, a symbol
    rintro v f x hv ⟨d, hd, ht⟩
    obtain ⟨w, hw, hsym⟩ := Value.isSymbol_mem_surface_of_target? ht
    have hfree := hv w (Value.surface_subset_of_mem_visible hd hw)
    rw [hsym] at hfree
    cases hfree

theorem Discipline.lasting_symbolFree : symbolFree.Lasting :=
  ⟨fun _ => List.forall_mem_singleton.mpr rfl, fun _ => trivial, fun _ => trivial⟩

namespace Session
open Eval Discipline.Scoping

/-- In every scope of a session, whatever a form comes to, a name whose binding in that scope is
another one afterwards is the target of a definition visible in the form. A form in which no
definition is visible leaves all frames as they were. -/
theorem visible_definitions {e : Environment} (he : Live e) (depth : Nat) (form : Value)
    (fresh : Identity) (events : List Event) :
    (∀ x, ((evaluate depth form).run ⟨e, fresh, events⟩).2.env.inner.lookup? x ≠ e.inner.lookup? x →
      ∃ d ∈ form.visible, d.target? = some x) ∧
    ((∀ d ∈ form.visible, d.target? = none) →
      ((evaluate depth form).run ⟨e, fresh, events⟩).2.env = e) := by
  have hr := evaluates_evaluate Discipline.symbolFree.holding depth form trivial
  obtain ⟨_, hg, _⟩ := hr.run (m := ⟨e, fresh, events⟩) (Discipline.lasting_symbolFree.of_live he)
  refine ⟨fun x hx => ?_, fun hd => hg.eq_of_forall_not ?_⟩
  · exact Classical.byContradiction fun hn => hx (hg.lookup?_inner hn)
  · rintro x ⟨d, hm, ht⟩
    rw [hd d hm] at ht
    cases ht

/-! A session with another name for `begin` and a function that defines something for itself. A
call of the function changes nothing; a definition under the other name is visible. -/

abbrev withAlias : Session :=
  ((Session.start 9).eval "(define b begin) (define (f) (define z 1) (apply b (list z)))").2

abbrev callF : Value :=
  .list 0 [.symbol 0 "f"]

abbrev beginDefine : Value :=
  .list 0 [.symbol 0 "b", .list 0 [.symbol 0 "define", .symbol 0 "w", .int 2]]

theorem visible_definitions_withAlias :
    ((evaluate 9 callF).run withAlias.machine).1 = .ok (.int 1) ∧
      ((evaluate 9 callF).run withAlias.machine).2.env = withAlias.machine.env ∧
      ((evaluate 9 beginDefine).run withAlias.machine).2.env.inner.lookup? "w" = some (.int 2) ∧
      ∃ d ∈ beginDefine.visible, d.target? = some "w" := by
  have he : Live withAlias.machine.env := .between (.eval (.start 9) _)
  have hw : ((evaluate 9 beginDefine).run withAlias.machine).2.env.inner.lookup? "w" =
      some (.int 2) := by cbv
  have hn : withAlias.machine.env.inner.lookup? "w" = none := by cbv
  refine ⟨by cbv, (visible_definitions he 9 callF _ _).2 (by decide), hw, ?_⟩
  have hd := (visible_definitions he 9 beginDefine withAlias.machine.fresh
    withAlias.machine.events).1 "w"
  rw [hn] at hd
  exact hd fun h => Option.some_ne_none _ (hw.symm.trans h)

end Session

end DynamicLisp
