import Mathlib
import DynamicLisp.Proofs.Reading.Grammar
import DynamicLisp.Proofs.Reading.Tokens
import DynamicLisp.Proofs.Session.Interleaving

/-! Texts that are joined. Main statement: behind a text that can be read to its end, with blanks in
between, another one is evaluated as it would be by itself in the session that the first leaves. -/
namespace DynamicLisp

namespace Script

/-- Tokens leave no form and no defect only if there are none. -/
theorem eq_nil_of_forms_eq_nil {ts : List Token} (hf : (ofTokens ts).forms = [])
    (hd : (ofTokens ts).defect = none) : ts = [] := by
  obtain ⟨parts, _, hts, hfs⟩ := ofTokens_eq_iff.mp (congrArg (mk _) hd)
  rw [hf] at hfs
  rw [hts, List.map_eq_nil_iff.mp hfs.symm, List.flatMap_nil]

theorem ofText_apart {a b w : String} (hw : ∀ c ∈ w.toList, Text.isBlank c) (hne : w ≠ "")
    (ha : (ofText a).defect = none) :
    ofText (a ++ w ++ b) = ⟨(ofText a).forms ++ (ofText b).forms, (ofText b).defect⟩ := by
  rw [ofText, Token.ofText_apart hw hne]
  exact ofTokens_append ha

end Script

namespace Session
open Eval

/-- Two requests in turn: the second goes to the session that the first leaves behind, unless the
first halts. -/
def inTurn {α β γ : Type} (s : Session) (first : Session → Except Halt α × Session)
    (second : Session → Except Halt β × Session) (combine : α → β → γ) :
    Except Halt γ × Session :=
  match first s with
  | (.error e, s') => (.error e, s')
  | (.ok a, s') =>
    match second s' with
    | (.error e, s'') => (.error e, s'')
    | (.ok b, s'') => (.ok (combine a b), s'')

/-- What is made of the values of joined rows is what is made of those of each row, combined. -/
private theorem perform_append {α β γ : Type} {f : List Value → α} {g : List Value → β}
    {k : List Value → γ} {combine : α → β → γ} (s : Session) {p q : Script} (hp : p.defect = none)
    (hk : ∀ vs ws, q.defect = none → ws.length = q.forms.length →
      k (vs ++ ws) = combine (f vs) (g ws)) :
    s.perform (each (evaluate s.depth) (p.forms ++ q.forms) >>= fun vs => q.finish (k vs)) =
      s.inTurn (fun t => t.perform (each (evaluate t.depth) p.forms >>= fun vs => p.finish (f vs)))
        (fun t => t.perform (each (evaluate t.depth) q.forms >>= fun ws => q.finish (g ws)))
        combine := by
  simp only [inTurn, perform, each_append, bind_assoc, run_bind, pure_bind, Script.finish, hp]
  generalize (each (evaluate s.depth) p.forms).run s.machine = r
  obtain ⟨r, m₁⟩ := r
  cases r with
  | error e => rfl
  | ok vs =>
    simp only [run_pure]
    generalize hq : (each (evaluate s.depth) q.forms).run m₁ = r
    obtain ⟨r, m₂⟩ := r
    cases r with
    | error e => rfl
    | ok ws =>
      cases hd : q.defect with
      | some e => rfl
      | none => simp only [run_pure, hk vs ws hd (length_of_each hq)]

/-- Joining texts joins what they do. Let a text be read to its end, and let blanks stand between it
and another one. Evaluated together they end as the first followed by the second, in the outcome
and in the session left behind: with the last value of the second text if that has a token at all,
and with the values of both if each is asked for. -/
theorem texts_in_turn (s : Session) {a b w : String} (hw : ∀ c ∈ w.toList, Text.isBlank c)
    (hne : w ≠ "") (ha : (Script.ofText a).defect = none) :
    s.eval (a ++ w ++ b) =
        s.inTurn (·.eval a) (·.eval b) (fun v u => if Token.ofText b = [] then v else u) ∧
      s.evalEach (a ++ w ++ b) = s.inTurn (·.evalEach a) (·.evalEach b) (· ++ ·) := by
  have hj := Script.ofText_apart (b := b) hw hne ha
  constructor
  · simp only [eval, Script.last_eq_each, hj]
    refine perform_append s ha fun vs ws hd hl => ?_
    split
    · next hb =>
      have hf : (Script.ofText b).forms = [] := by
        rw [Script.ofText, hb, Script.ofTokens]
      rw [hf] at hl
      rw [List.eq_nil_of_length_eq_zero hl, List.append_nil]
    · next hb =>
      have hws : ws ≠ [] := by
        rintro rfl
        exact hb (Script.eq_nil_of_forms_eq_nil (List.eq_nil_of_length_eq_zero hl.symm) hd)
      rw [List.getLastD_eq_getLast?, List.getLastD_eq_getLast?,
        List.getLast?_append_of_ne_nil vs hws]
  · simp only [evalEach, Script.values, hj]
    exact perform_append s ha fun vs ws _ _ => rfl

/-! The first text defines another name for `begin`; the second defines something under that name
and then fails. -/

abbrev defining : String :=
  "(define b begin) '(1 2)"

abbrev failing : String :=
  "(b (define x '(3)) x) (car (cdr x)) 4"

theorem texts_in_turn_failing :
    ((start 9).eval (defining ++ " \n" ++ failing)).1 = .error (.fault (.notPair "CAR")) ∧
      (start 9).eval (defining ++ " \n" ++ failing) =
        (start 9).inTurn (·.eval defining) (·.eval failing)
          (fun v u => if Token.ofText failing = [] then v else u) := by
  have ha : (Script.ofText defining).defect = none := by cbv
  have he : ((start 9).eval (defining ++ " \n" ++ failing)).1 =
      .error (.fault (.notPair "CAR")) := by cbv
  have hw : ∀ c ∈ " \n".toList, Text.isBlank c := by
    have hl : " \n".toList = [' ', '\n'] := by cbv
    rw [hl]
    exact List.forall_mem_cons.mpr ⟨by decide, List.forall_mem_singleton.mpr (by decide)⟩
  exact ⟨he, (texts_in_turn (start 9) hw (by decide) ha).1⟩

end Session

end DynamicLisp
