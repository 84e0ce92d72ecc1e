import Mathlib
import DynamicLisp.Proofs.Reading.Grammar
import DynamicLisp.Proofs.Reading.Tokens
import DynamicLisp.Proofs.Session.Displays

/-! The first form of a text. Main statement: a program is evaluated as the text of its first form
is in a session of its own, and nothing behind that form has an influence on the outcome. -/
namespace DynamicLisp

/-- The tokens of a form are a script of that form alone. -/
theorem Script.ofTokens_of_spells {c : List Token} {form : Value} (h : Reading.Spells c form) :
    ofTokens c = ⟨[form], none⟩ :=
  ofTokens_eq_iff.mpr ⟨[(c, form)], List.forall_mem_singleton.mpr h, by simp, rfl⟩

namespace Session
open Eval

/-- A session evaluates a form whose tokens are set out with blanks between them. -/
theorem eval_intercalate (s : Session) {c : List Token} {form : Value} {w : String}
    (hw : ∀ x ∈ w.toList, Text.isBlank x) (hne : w ≠ "") (hc : ∀ t ∈ c, t.IsWhole)
    (h : Reading.Spells c form) :
    s.eval (w.intercalate c) = s.perform (evaluate s.depth form) := by
  have hs : Script.ofText (w.intercalate c) = ⟨[form], none⟩ := by
    rw [Script.ofText, Token.ofText_intercalate_of_isWhole hw hne hc, Script.ofTokens_of_spells h]
  have hl : (Script.ofText (w.intercalate c)).last s.depth = evaluate s.depth form := by
    rw [hs, Script.last]
    simp only [inOrder, Script.finish, bind_pure]
  rw [eval, hl]

end Session

namespace Program
open Eval
variable {depth : Nat} {source : String} {ts rest : List Token} {form : Value}

theorem value_of_read (h : Reading.ofTokens ts = ⟨.ok form, rest⟩) :
    value depth ts = evaluate depth form := by
  rw [value, h]
  rfl

/-- A program gives the display of the value of its first form. -/
theorem run_of_read (h : Reading.ofTokens (Token.ofText source) = ⟨.ok form, rest⟩) :
    (run source depth).1 =
      ((Session.start depth).perform (evaluate depth form)).1.bind Value.display? := by
  rw [fst_run, display, value_of_read h, run_bind, Session.perform, Session.start]
  generalize (evaluate depth form).run Catalog.machine = r
  obtain ⟨r, m⟩ := r
  cases r with
  | error e => rfl
  | ok v =>
    show ((ofHalt v.display?).run m).1 = v.display?
    rw [run_ofHalt]

theorem run_of_refused {e : Halt}
    (h : (Reading.ofTokens (Token.ofText source)).outcome = .error e) :
    (run source depth).1 = .error e := by
  rw [fst_run, display, value, h]
  rfl

/-- A program is the first form of its text. If a form can be read from the front of the text, then
the tokens that it takes, joined by blanks, are a text from which a new session gets the value that
the program displays, or the error with which it ends; a value has a display, and every text that
begins with these tokens is the same program. If no form can be read, the program ends with what
stopped the reading. -/
theorem run_first_form (source : String) (depth : Nat) :
    (∀ form rest, Reading.ofTokens (Token.ofText source) = ⟨.ok form, rest⟩ →
      ∃ c, Token.ofText source = c ++ rest ∧
        (run source depth).1 =
          ((Session.start depth).eval (" ".intercalate c)).1.bind Value.display? ∧
        (∀ v, ((Session.start depth).eval (" ".intercalate c)).1 = .ok v →
          v.display? = .ok v.display) ∧
        ∀ other rest', Token.ofText other = c ++ rest' →
          (run other depth).1 = (run source depth).1) ∧
    ∀ e, (Reading.ofTokens (Token.ofText source)).outcome = .error e →
      (run source depth).1 = .error e := by
  refine ⟨fun form rest h => ?_, fun e h => run_of_refused h⟩
  obtain ⟨c, hc, hs⟩ := Reading.ofTokens_eq_ok_iff.mp h
  have hwhole : ∀ t ∈ c, t.IsWhole := fun t ht =>
    Token.isWhole_of_mem_ofText (hc ▸ List.mem_append_left rest ht)
  have he : (Session.start depth).eval (" ".intercalate c) =
      (Session.start depth).perform (evaluate depth form) :=
    (Session.start depth).eval_intercalate Token.isBlank_of_mem_space (by decide) hwhole hs
  refine ⟨c, hc, ?_, fun v hv => ?_, fun other rest' ho => ?_⟩
  · rw [he, run_of_read h]
  · exact Session.display?_of_returned (.last (.start depth) hv)
  · have ho' : Reading.ofTokens (Token.ofText other) = ⟨.ok form, rest'⟩ :=
      Reading.ofTokens_eq_ok_iff.mpr ⟨c, ho, hs⟩
    rw [run_of_read ho', run_of_read h]

/-! What follows the first form cannot be read. -/

abbrev trailing : String :=
  "(cons(car '(1\n 2))(list)) )' 99 ((("

abbrev front : List Token :=
  ["(", "cons", "(", "car", "'", "(", "1", "2", ")", ")", "(", "list", ")", ")"]

theorem run_first_form_trailing :
    Token.ofText trailing = front ++ [")", "'", "99", "(", "(", "("] ∧
      ((Session.start 5).eval (" ".intercalate front)).1 = .ok (.pair 4 (.int 1) (.list 3 [])) ∧
      (run trailing 5).1 = .ok "(1 . ())" := by
  have ht : Token.ofText trailing = front ++ [")", "'", "99", "(", "(", "("] := by cbv
  have hr : Reading.ofTokens (Token.ofText trailing) =
      ⟨.ok (.list 0 [.symbol 0 "cons", .list 0 [.symbol 0 "car",
        .list 0 [.symbol 0 "list", .int 1, .int 2]], .list 0 [.symbol 0 "list"]]),
      [")", "'", "99", "(", "(", "("]⟩ := by cbv
  have hv : ((Session.start 5).eval (" ".intercalate front)).1 =
      .ok (.pair 4 (.int 1) (.list 3 [])) := by cbv
  obtain ⟨c, hc, he, hd, _⟩ := (run_first_form trailing 5).1 _ _ hr
  obtain rfl : front = c := List.append_cancel_right (ht.symm.trans hc)
  have hw : (Value.pair 4 (.int 1) (.list 3 [])).display = "(1 . ())" := by cbv
  refine ⟨ht, hv, ?_⟩
  rw [he, hv, Except.bind, hd _ hv, hw]

end Program

end DynamicLisp
