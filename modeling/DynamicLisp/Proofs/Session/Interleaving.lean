import Mathlib
import DynamicLisp.Proofs.Eval.Rows
import DynamicLisp.Proofs.Reading.Grammar
import DynamicLisp.Session

/-! Reading and evaluating by turns. A text may be evaluated while it is read, form by form. Main
statement: this comes to the same as reading it first, so a defect of the text neither prevents nor
hides what the forms before it do. -/
namespace DynamicLisp

namespace Eval

/-- Takes form after form off the tokens. Each is evaluated before the next is read, and its value
is added to what has been gathered so far. -/
def byTurns {α : Type} (ev : Value → Eval Value) (add : α → Value → α) (gathered : α) :
    List Token → Eval α
  | [] => pure gathered
  | t :: ts =>
    match (Reading.ofTokens (t :: ts)).outcome with
    | .error e => throw e
    | .ok form => do
      let v ← ev form
      byTurns ev add (add gathered v) (Reading.ofTokens (t :: ts)).rest
termination_by ts => ts.length
decreasing_by exact Reading.length_rest_ofTokens_cons t ts

end Eval

namespace Script
open Eval
variable {depth : Nat} {p : Script} {vs : List Value} {m m' : Machine} {e : Halt}

theorem last_eq_each (depth : Nat) (p : Script) :
    p.last depth = each (evaluate depth) p.forms >>= fun vs => p.finish (vs.getLastD .nil) := by
  simp only [last, inOrder_eq_each, bind_assoc, pure_bind]

/-- Going through tokens by turns is evaluating the forms that they spell, up to the defect. -/
theorem byTurns_eq_each {α : Type} (ev : Value → Eval Value) (add : α → Value → α) (gathered : α)
    (ts : List Token) :
    byTurns ev add gathered ts =
      each ev (ofTokens ts).forms >>= fun vs =>
        (ofTokens ts).finish (vs.foldl add gathered) := by
  induction ts using ofTokens.induct generalizing gathered with
  | case1 =>
    rw [byTurns, ofTokens]
    rfl
  | case2 t ts e he =>
    rw [byTurns, ofTokens]
    simp only [he]
    rfl
  | case3 t ts form hform ih =>
    rw [byTurns, ofTokens]
    simp only [hform, each, ih, bind_assoc, pure_bind, List.foldl_cons]
    rfl

/-- A form that halts ends a script at once, whatever stands behind it. -/
theorem run_of_stops (h : Stops (evaluate depth) p.forms m e m') :
    (p.last depth).run m = (.error e, m') ∧ (p.values depth).run m = (.error e, m') := by
  rw [last_eq_each, values, run_bind, run_bind, h.run_each]
  exact ⟨rfl, rfl⟩

/-- A defect ends a script after all its forms. -/
theorem run_of_defect (h : Passes (evaluate depth) p.forms m vs m') (hd : p.defect = some e) :
    (p.last depth).run m = (.error e, m') ∧ (p.values depth).run m = (.error e, m') := by
  rw [last_eq_each, values, run_bind, run_bind, h.run_each]
  simp only [finish, hd, run_throw, and_self]

theorem run_of_passes (h : Passes (evaluate depth) p.forms m vs m') (hd : p.defect = none) :
    (p.last depth).run m = (.ok (vs.getLastD .nil), m') ∧
      (p.values depth).run m = (.ok vs, m') := by
  rw [last_eq_each, values, run_bind, run_bind, h.run_each]
  simp only [finish, hd, run_pure, and_self]

end Script

namespace Session
open Eval

private theorem foldl_last (v : Value) (vs : List Value) :
    vs.foldl (fun _ w => w) v = vs.getLastD v := by
  induction vs generalizing v with
  | nil => rfl
  | cons w vs ih => rw [List.foldl_cons, ih, List.getLastD_cons]

private theorem foldl_concat (vs ws : List Value) :
    ws.foldl (fun us w => us ++ [w]) vs = vs ++ ws := by
  induction ws generalizing vs with
  | nil => exact (List.append_nil vs).symm
  | cons w ws ih => rw [List.foldl_cons, ih, List.append_assoc, List.singleton_append]

/-- Evaluating a text, for its last value or for all of them, is going through its tokens by turns.
The forms and the defect are those found in reading form after form. A form that halts ends both
with its halt; if none does, the defect ends both, where all forms have left the session; and a text
without a defect gives all values, or the last of them. One of the three comes about. -/
theorem texts_by_turns (s : Session) (code : String) :
    s.eval code = s.perform
        (byTurns (evaluate s.depth) (fun _ v => v) .nil (Token.ofText code)) ∧
      s.evalEach code = s.perform
        (byTurns (evaluate s.depth) (fun vs v => vs ++ [v]) [] (Token.ofText code)) ∧
      ∃ forms defect, Script.Reads (Token.ofText code) ⟨forms, defect⟩ ∧
        (∀ e m, Stops (evaluate s.depth) forms s.machine e m →
          s.eval code = (.error e, { s with machine := m }) ∧
            s.evalEach code = (.error e, { s with machine := m })) ∧
        (∀ vs m e, Passes (evaluate s.depth) forms s.machine vs m → defect = some e →
          s.eval code = (.error e, { s with machine := m }) ∧
            s.evalEach code = (.error e, { s with machine := m })) ∧
        (∀ vs m, Passes (evaluate s.depth) forms s.machine vs m → defect = none →
          s.eval code = (.ok (vs.getLastD .nil), { s with machine := m }) ∧
            s.evalEach code = (.ok vs, { s with machine := m })) ∧
        ((∃ e m, Stops (evaluate s.depth) forms s.machine e m) ∨
          ∃ vs m, Passes (evaluate s.depth) forms s.machine vs m) := by
  refine ⟨?_, ?_, (Script.ofText code).forms, (Script.ofText code).defect,
    Script.reads_iff.mpr rfl, ?_, ?_, ?_, stops_or_passes _ _ _⟩
  · rw [eval, Script.last_eq_each, Script.byTurns_eq_each]
    simp only [foldl_last]
    rfl
  · rw [evalEach, Script.values, Script.byTurns_eq_each]
    simp only [foldl_concat, List.nil_append]
    rfl
  · intro e m h
    obtain ⟨hl, hv⟩ := Script.run_of_stops h
    simp only [eval, evalEach, perform, hl, hv, and_self]
  · intro vs m e h hd
    obtain ⟨hl, hv⟩ := Script.run_of_defect h hd
    simp only [eval, evalEach, perform, hl, hv, and_self]
  · intro vs m h hd
    obtain ⟨hl, hv⟩ := Script.run_of_passes h hd
    simp only [eval, evalEach, perform, hl, hv, and_self]

/-! Two definitions stand before a list that is not closed. -/

abbrev unclosed : String :=
  "(define x 1) (define y '(x 2)) (car y"

theorem texts_by_turns_unclosed :
    ((start 9).eval unclosed).1 = .error (.fault .missingCloseParen) ∧
      ((start 9).eval unclosed).2.machine.env.inner.lookup? "x" = some (.int 1) ∧
      (start 9).eval unclosed = (start 9).perform
        (byTurns (evaluate 9) (fun _ v => v) .nil (Token.ofText unclosed)) := by
  have he : ((start 9).eval unclosed).1 = .error (.fault .missingCloseParen) := by cbv
  have hx : ((start 9).eval unclosed).2.machine.env.inner.lookup? "x" = some (.int 1) := by cbv
  exact ⟨he, hx, (texts_by_turns (start 9) unclosed).1⟩

end Session

end DynamicLisp
