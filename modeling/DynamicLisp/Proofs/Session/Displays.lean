import Mathlib
import DynamicLisp.Proofs.Command.Report
import DynamicLisp.Proofs.Session.Numbers
import DynamicLisp.Proofs.Session.Visibility
import DynamicLisp.Proofs.Value.Displayed

/-! What sessions show. Symbols stay in forms, foreign texts have no way in, and integers in range
are short enough to be written; so whatever comes back has a display, and it is in the grammar. -/
namespace DynamicLisp

namespace Value

/-- No part of the value is a foreign text, also inside bodies. -/
def IsTextFree (v : Value) : Prop :=
  ∀ w ∈ v.parts, w.isText = false

theorem isTextFree_list {i : Identity} {items : List Value} :
    (list i items).IsTextFree ↔ ∀ v ∈ items, v.IsTextFree :=
  forall_parts_list.trans (and_iff_right rfl)

theorem isTextFree_pair {i : Identity} {a d : Value} :
    (pair i a d).IsTextFree ↔ a.IsTextFree ∧ d.IsTextFree :=
  forall_parts_pair.trans (and_iff_right rfl)

theorem isTextFree_lambda {i : Identity} {name : String} {params : List String}
    {body : List Value} : (lambda i name params body).IsTextFree ↔ ∀ f ∈ body, f.IsTextFree :=
  forall_parts_lambda.trans (and_iff_right rfl)

theorem isShowable_of_isRanged {v : Value} (h : v.IsRanged) : v.isShowable := by
  refine isShowable_iff.mpr fun n hn => isWritable_of_inRange ?_
  rw [inRange_iff]
  exact h n (v.surface_subset_parts hn)

end Value

/-- The discipline of programs without foreign texts, those in bodies included. -/
def Discipline.textFree : Discipline where
  name _ := True
  data := Value.IsTextFree
  form := Value.IsTextFree
  defines _ _ := True
  bool _ := Value.forall_parts_of_eq rfl rfl
  int _ := Value.forall_parts_of_eq rfl rfl
  nil := Value.forall_parts_of_eq rfl rfl
  list := Value.isTextFree_list
  pair := Value.isTextFree_pair
  lambda := by
    intro i f params body
    rw [Value.isTextFree_lambda]
    exact ⟨fun h => ⟨fun _ _ => trivial, h⟩, And.right⟩
  form_of_data h := h
  symbol _ := trivial
  items := Value.isTextFree_list.mp
  atom h _ := h
  defines_variable _ := trivial
  defines_value _ _ := trivial
  defines_function _ := trivial
  defines_item _ _ _ := trivial
  defines_of_data _ _ := trivial

theorem Discipline.lasting_textFree : textFree.Lasting where
  native _ := Value.forall_parts_of_eq rfl rfl
  symbol _ := Value.forall_parts_of_eq rfl rfl
  list := Value.isTextFree_list.mpr

namespace Session
open Eval Discipline Primitive

theorem display?_of_returned {v : Value} (h : Returned v) : v.display? = .ok v.display := by
  have hs : v.isShowable := Value.isShowable_of_isRanged (lasting_ranged.of_returned h)
  rw [Value.display?, if_pos hs]

theorem displayed_of_returned {v : Value} (h : Returned v) : Displayed v.display := by
  have hs : ∀ w ∈ v.surface, w.isSymbol = false := lasting_symbolFree.of_returned h
  have ht : v.IsTextFree := lasting_textFree.of_returned h
  exact Value.displayed_display fun w hw => ⟨hs w hw, ht w (v.surface_subset_parts hw)⟩

/-- A program displays the value that it returns. -/
theorem displayed_of_run {source : String} {depth : Nat} {text : String}
    (h : (Program.run source depth).1 = .ok text) : Displayed text := by
  obtain ⟨v, hv, ht⟩ := Program.value_of_run h
  have hr : Returned v := .program hv
  rw [display?_of_returned hr] at ht
  cases ht
  exact displayed_of_returned hr

private theorem mapM_display? {vs : List Value} (h : ∀ v ∈ vs, Returned v) :
    vs.mapM Value.display? = .ok (vs.map Value.display) := by
  induction vs with
  | nil => rfl
  | cons v vs ih =>
    obtain ⟨hv, hvs⟩ := List.forall_mem_cons.mp h
    rw [List.mapM_cons, display?_of_returned hv, ih hvs]
    rfl

/-- All forms of a text: the displays of their values, since each of them has one. -/
theorem evaluate_session (depth : Nat) (program : String) :
    (Command.evaluate depth true program).1 =
      ((start depth).evalEach program).1.map fun vs => vs.map Value.display := by
  cases hr : ((start depth).evalEach program).1 with
  | error e => simp only [Command.evaluate, hr, Except.bind, Except.map, if_true]
  | ok vs =>
    have hvs : ∀ v ∈ vs, Returned v := fun v hv => .each (.start depth) hr hv
    simp only [Command.evaluate, hr, Except.bind, Except.map, if_true, mapM_display? hvs]

theorem evaluate_program (depth : Nat) (program : String) :
    (Command.evaluate depth false program).1 =
      (Program.run program depth).1.map fun text => [text] := by
  simp only [Command.evaluate, Bool.false_eq_true, if_false]

theorem displayed_of_evaluate {depth : Nat} {session : Bool} {program : String}
    {ds : List String} (h : (Command.evaluate depth session program).1 = .ok ds) :
    ∀ d ∈ ds, Displayed d := by
  cases session with
  | true =>
    rw [evaluate_session] at h
    obtain ⟨vs, hvs, rfl⟩ := map_eq_ok h
    refine List.forall_mem_map.mpr fun v hv => ?_
    exact displayed_of_returned (.each (.start depth) hvs hv)
  | false =>
    rw [evaluate_program] at h
    obtain ⟨text, ht, rfl⟩ := map_eq_ok h
    exact List.forall_mem_singleton.mpr (displayed_of_run ht)

/-- What a command writes consists of displays in the grammar, each on a line of its own. -/
theorem displayed_of_output (host : Command.Host) (args : Command.Arguments) :
    ∃ ds : List String,
      (Command.execute host args).output = String.join (ds.map fun d => d ++ "\n") ∧
        ∀ d ∈ ds, Displayed d := by
  rcases Command.output_eq host args with h | ⟨depth, program, ds, hr, h⟩
  · exact ⟨[], h, fun d hd => (List.not_mem_nil hd).elim⟩
  · exact ⟨ds, h, displayed_of_evaluate hr⟩

/-- No value that is bound in a scope of a session or comes back from an evaluation has a symbol on
its surface. So all that comes back has a display, and whatever a program gives or a command writes
out consists of displays in the grammar. -/
theorem values_symbolFree :
    (∀ e, Live e → ∀ f ∈ e.frames, ∀ b ∈ f.entries, ∀ w ∈ b.2.surface, w.isSymbol = false) ∧
    (∀ v, Returned v → (∀ w ∈ v.surface, w.isSymbol = false) ∧
      v.display? = .ok v.display ∧ Displayed v.display) ∧
    (∀ source depth text, (Program.run source depth).1 = .ok text → Displayed text) ∧
    ∀ host args, ∃ ds : List String,
      (Command.execute host args).output = String.join (ds.map fun d => d ++ "\n") ∧
        ∀ d ∈ ds, Displayed d := by
  refine ⟨fun e he => lasting_symbolFree.of_live he, ?_, ?_, displayed_of_output⟩
  · intro v hv
    exact ⟨lasting_symbolFree.of_returned hv, display?_of_returned hv, displayed_of_returned hv⟩
  · intro source depth text h
    exact displayed_of_run h

/-! Procedures, forms behind a quote mark and definitions come back as data. -/

abbrev assorted : String :=
  "(define (f x) y) (list (cons true f) '(-2 (list)) (define z))"

theorem values_symbolFree_assorted :
    ∃ v, ((start 9).eval assorted).1 = .ok v ∧ v.display = "((true . #<procedure>) (-2 ()) nil)" ∧
      (∀ w ∈ v.surface, w.isSymbol = false) ∧ Displayed v.display := by
  have hv : ((start 9).eval assorted).1 = .ok (.list 5 [.pair 2 (.bool true)
      (.lambda 1 "f" ["x"] [.symbol 0 "y"]), .list 4 [.int (-2), .list 3 []], .nil]) := by cbv
  obtain ⟨hs, _, hd⟩ := values_symbolFree.2.1 _ (.last (.start 9) hv)
  exact ⟨_, hv, by cbv, hs, hd⟩

end Session

end DynamicLisp
