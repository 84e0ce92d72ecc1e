import Mathlib
import DynamicLisp.Proofs.Session.Life
import DynamicLisp.Proofs.Value.Parts

/-! The range of integers in sessions. Integers come from texts, where those out of range are
symbols, and from primitives, which check what they give; everything else hands on what it got. -/
namespace DynamicLisp

/-- All integers inside a value, at any depth, are signed words of 32 bits. -/
def Value.IsRanged (v : Value) : Prop :=
  ∀ n, .int n ∈ v.parts → -2147483648 ≤ n ∧ n ≤ 2147483647

namespace Value

theorem isRanged_int {n : Int} : (int n).IsRanged ↔ inRange n := by
  rw [inRange_iff]
  constructor
  · exact fun h => h n (.head _)
  · rintro h m hm
    cases List.mem_singleton.mp hm
    exact h

theorem isRanged_list {i : Identity} {items : List Value} :
    (list i items).IsRanged ↔ ∀ v ∈ items, v.IsRanged := by
  unfold IsRanged
  simp only [parts_list, List.mem_cons, reduceCtorEq, false_or, List.mem_flatMap]
  constructor
  · intro h v hv n hn
    exact h n ⟨v, hv, hn⟩
  · rintro h n ⟨v, hv, hn⟩
    exact h v hv n hn

theorem isRanged_pair {i : Identity} {a d : Value} :
    (pair i a d).IsRanged ↔ a.IsRanged ∧ d.IsRanged := by
  unfold IsRanged
  simp only [parts_pair, List.mem_cons, reduceCtorEq, false_or, List.mem_append]
  exact ⟨fun h => ⟨fun n hn => h n (.inl hn), fun n hn => h n (.inr hn)⟩,
    fun h n hn => hn.elim (h.1 n) (h.2 n)⟩

theorem isRanged_lambda {i : Identity} {name : String} {params : List String} {body : List Value} :
    (lambda i name params body).IsRanged ↔ ∀ f ∈ body, f.IsRanged := by
  unfold IsRanged
  simp only [parts_lambda, List.mem_cons, reduceCtorEq, false_or, List.mem_flatMap]
  constructor
  · intro h v hv n hn
    exact h n ⟨v, hv, hn⟩
  · rintro h n ⟨v, hv, hn⟩
    exact h v hv n hn

/-- A value without others inside, and no integer itself. -/
theorem isRanged_of_parts_eq {v : Value} (h : v.parts = [v]) (hv : v.isInteger = false) :
    v.IsRanged := by
  intro n hn
  rw [h] at hn
  cases List.mem_singleton.mp hn
  cases hv

end Value

/-- The discipline of programs all of whose integers are in range, those in bodies included. -/
def Discipline.ranged : Discipline where
  name _ := True
  data := Value.IsRanged
  form := Value.IsRanged
  defines _ _ := True
  bool _ := Value.isRanged_of_parts_eq rfl rfl
  int := Value.isRanged_int.mpr
  nil := Value.isRanged_of_parts_eq rfl rfl
  list := Value.isRanged_list
  pair := Value.isRanged_pair
  lambda := by
    intro i f params body
    rw [Value.isRanged_lambda]
    exact ⟨fun h => ⟨fun _ _ => trivial, h⟩, And.right⟩
  form_of_data h := h
  symbol _ := trivial
  items := Value.isRanged_list.mp
  atom h _ := h
  defines_variable _ := trivial
  defines_value _ _ := trivial
  defines_function _ := trivial
  defines_item _ _ _ := trivial
  defines_of_data _ _ := trivial

theorem Discipline.lasting_ranged : ranged.Lasting where
  native _ := Value.isRanged_of_parts_eq rfl rfl
  symbol _ := Value.isRanged_of_parts_eq rfl rfl
  list := Value.isRanged_list.mpr

/-- What a program shows is the display of the value of its first form. -/
theorem Program.value_of_run {source : String} {depth : Nat} {text : String}
    (h : (run source depth).1 = .ok text) :
    ∃ v, ((value depth (Token.ofText source)).run Catalog.machine).1 = .ok v ∧
      v.display? = .ok text := by
  rw [fst_run, display, Eval.run_bind] at h
  split at h
  · next v m' hv =>
    rw [Eval.run_ofHalt] at h
    exact ⟨v, congrArg Prod.fst hv, h⟩
  · cases h

namespace Session
open Eval Discipline Discipline.Scoping

/-- Every integer inside a value bound in a scope of a session is in range, and so is every one
inside a value that an evaluation gives or that a program shows. -/
theorem integers_inRange :
    (∀ e, Live e → ∀ f ∈ e.frames, ∀ b ∈ f.entries, b.2.IsRanged) ∧
    (∀ depth form m, Occurs depth form m →
      ∀ v, ((evaluate depth form).run m).1 = .ok v → v.IsRanged) ∧
    (∀ s, Reachable s → ∀ code v, (s.eval code).1 = .ok v → v.IsRanged) ∧
    (∀ s, Reachable s → ∀ code vs, (s.evalEach code).1 = .ok vs → ∀ v ∈ vs, v.IsRanged) ∧
    ∀ source depth text, (Program.run source depth).1 = .ok text →
      ∃ v, ((Program.value depth (Token.ofText source)).run Catalog.machine).1 = .ok v ∧
        v.display? = .ok text ∧ v.IsRanged := by
  refine ⟨fun e he => lasting_ranged.of_live he, ?_, ?_, ?_, ?_⟩
  · intro depth form m h v hv
    obtain ⟨hf, hm⟩ := lasting_ranged.of_occurs h
    exact ((evaluates_evaluate ranged.holding depth form hf).run hm).2.2 v hv
  · intro s h code v hv
    have hs := (lasting_ranged.of_reachable h).1
    exact ((lasting_ranged.respects_last ranged.holding s.depth code).run hs).2.2 v hv
  · intro s h code vs hvs
    have hs := (lasting_ranged.of_reachable h).1
    exact ((lasting_ranged.respects_values ranged.holding s.depth code).run hs).2.2 vs hvs
  · intro source depth text h
    obtain ⟨v, hv, ht⟩ := Program.value_of_run h
    have hr := (lasting_ranged.respects_value ranged.holding depth (Token.ofText source)).run
      (m := Catalog.machine) lasting_ranged.holds_catalog
    exact ⟨v, hv, ht, hr.2.2 v hv⟩

/-! The greatest integer is bound and returned; one more would be a fault. -/

abbrev greatest : String :=
  "(define x 2147483647) (list x (cons -5 (- 0 x)))"

theorem integers_inRange_greatest :
    ((start 9).eval greatest).1 =
        .ok (.list 3 [.int 2147483647, .pair 2 (.int (-5)) (.int (-2147483647))]) ∧
      Value.IsRanged (.list 3 [.int 2147483647, .pair 2 (.int (-5)) (.int (-2147483647))]) := by
  have hv : ((start 9).eval greatest).1 =
      .ok (.list 3 [.int 2147483647, .pair 2 (.int (-5)) (.int (-2147483647))]) := by cbv
  exact ⟨hv, integers_inRange.2.2.1 (start 9) (.start 9) greatest _ hv⟩

end Session

end DynamicLisp
