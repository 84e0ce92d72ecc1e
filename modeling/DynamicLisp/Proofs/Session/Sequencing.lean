import Mathlib
import DynamicLisp.Proofs.Eval.Nesting
import DynamicLisp.Proofs.Reading.Tokens
import DynamicLisp.Proofs.Session.Interleaving

/-! Texts inside `begin`. Main statement: a text put between `(begin ` and `)` does what it does at
the top level of a session, one level of nesting further in. -/
namespace DynamicLisp

namespace Token

theorem ofText_begin (code : String) :
    ofText ("(begin " ++ code ++ ")") = "(" :: "begin" :: (ofText code ++ [")"]) := by
  have hbefore : Break "(begin ".toList code.toList := by
    refine .inl fun c hc => .inl ?_
    have hl : "(begin ".toList.getLast? = some ' ' := by cbv
    rw [hl] at hc
    cases hc
    decide
  have hbehind : Break ("(begin " ++ code).toList ")".toList := by
    refine .inr fun c hc => .inr ?_
    cases hc
    decide
  have hopen : ofText "(begin " = ["(", "begin"] := by cbv
  have hclose : ofText ")" = [")"] := by cbv
  rw [ofText_append hbehind, ofText_append hbefore, hopen, hclose]
  rfl

end Token

namespace Script
open Reading

/-- The forms of a text become the operands of the one form that the text in `begin` is. -/
theorem ofText_begin {code : String} (hd : (ofText code).defect = none) :
    ofText ("(begin " ++ code ++ ")") =
      ⟨[.list .reader (.symbol .reader "begin" :: (ofText code).forms)], none⟩ := by
  obtain ⟨parts, hparts, hts, hfs⟩ := ofTokens_eq_iff.mp (congrArg (mk _) hd)
  have hhead : Spells ["begin"] (.symbol .reader "begin") := .atom (by decide) (by cbv)
  have hitems : ∀ p ∈ (["begin"], Value.symbol .reader "begin") :: parts, Spells p.1 p.2 :=
    List.forall_mem_cons.mpr ⟨hhead, hparts⟩
  have hlist := Spells.list hitems
  refine ofTokens_eq_iff.mpr ⟨[(_, _)], List.forall_mem_singleton.mpr hlist, ?_, ?_⟩
  · rw [Token.ofText_begin, hts]
    simp
  · rw [ofText, hfs]
    rfl

end Script

namespace Eval
variable {depth depth' : Nat} {p : Script} {m : Machine}

/-- A call of `begin` evaluates its operands in order, in the scope of the call. -/
theorem run_begin {i j : Identity} {forms : List Value}
    (hb : m.env.lookup? "begin" = some (.native .begin)) (hne : forms ≠ []) :
    (evaluate (depth + 1) (.list i (.symbol j "begin" :: forms))).run m =
      (inOrder (evaluate depth) .nil forms).run m := by
  obtain ⟨form, forms, rfl⟩ := List.exists_cons_of_ne_nil hne
  have hs : Special.ofHead? (.symbol j "begin") = none := by simp [Special.ofHead?]
  rw [evaluate]
  simp only [step, hs, callForm, run_bind]
  cases depth with
  | zero => rfl
  | succ depth =>
    have hh : (evaluate (depth + 1) (.symbol j "begin")).run m = (.ok (.native .begin), m) := by
      rw [evaluate, step, run_lookup, hb]
      rfl
    have hp : (Value.native .begin).isProcedure := rfl
    have ht : (Value.native .begin).takesForms := rfl
    simp only [hh, hp, if_true, arguments, ht, pure_bind, applyWith, run_bind,
      Callee.resolve_begin, run_ofHalt]
    rfl

/-- A script that stays within a bound takes the same course under a larger one. -/
theorem run_last_of_le (hd : depth ≤ depth') (h : ¬ Halts (p.last depth) m .nesting) :
    (p.last depth').run m = (p.last depth).run m := by
  rw [Script.last_eq_each] at h ⊢
  rw [Script.last_eq_each, run_bind, run_bind,
    run_each_of_le hd fun hn => h (halts_bind.mpr (.inl hn))]

end Eval

namespace Session
open Eval

private theorem perform_begin {s : Session} {code : String} (depth : Nat)
    (hb : s.machine.env.lookup? "begin" = some (.native .begin))
    (hd : (Script.ofText code).defect = none) (hne : (Script.ofText code).forms ≠ []) :
    ((Script.ofText ("(begin " ++ code ++ ")")).last (depth + 1)).run s.machine =
      ((Script.ofText code).last depth).run s.machine := by
  rw [Script.ofText_begin hd, Script.last, Script.last]
  simp only [inOrder, Script.finish, hd, bind_pure]
  exact run_begin hb hne

/-- A text inside `begin` is the text itself. Let `begin` mean the native, and let the text be read
to its end and contain a form. Then both ways end with one outcome and one session, whatever the
text does on the way, if the bound on nesting allows for the level of `begin`; and under any two
bounds within which both stay. -/
theorem text_in_begin (s : Session) (code : String)
    (hb : s.machine.env.lookup? "begin" = some (.native .begin))
    (hd : (Script.ofText code).defect = none) (hne : (Script.ofText code).forms ≠ []) :
    ({ s with depth := s.depth + 1 } : Session).eval ("(begin " ++ code ++ ")") =
        ((s.eval code).1, { (s.eval code).2 with depth := s.depth + 1 }) ∧
      ∀ depth depth' : Nat,
        (({ s with depth := depth } : Session).eval code).1 ≠ .error .nesting →
        (({ s with depth := depth' } : Session).eval ("(begin " ++ code ++ ")")).1 ≠
          .error .nesting →
        (({ s with depth := depth' } : Session).eval ("(begin " ++ code ++ ")")).1 =
            (({ s with depth := depth } : Session).eval code).1 ∧
          (({ s with depth := depth' } : Session).eval ("(begin " ++ code ++ ")")).2.machine =
            (({ s with depth := depth } : Session).eval code).2.machine := by
  constructor
  · simp only [eval, perform, perform_begin s.depth hb hd hne]
    rfl
  · intro depth depth' h h'
    cases depth' with
    | zero =>
      -- the call of `begin` alone is nested too deeply
      refine (h' ?_).elim
      simp only [eval, perform, Script.ofText_begin hd]
      rfl
    | succ depth' =>
      simp only [eval, perform, perform_begin depth' hb hd hne] at h h' ⊢
      rcases Nat.le_total depth depth' with hle | hle
      · rw [run_last_of_le hle h]
        exact ⟨rfl, rfl⟩
      · rw [run_last_of_le hle h']
        exact ⟨rfl, rfl⟩

/-! The text binds `begin` to something else, defines a name and fails in the middle. -/

abbrev rebinding : String :=
  "(define begin list) (define x (begin 1 2)) (car (cdr (cdr x))) (define y 3)"

theorem text_in_begin_rebinding :
    ((start 9).eval rebinding).1 = .error (.fault (.notPair "CAR")) ∧
      (start 10).eval ("(begin " ++ rebinding ++ ")") =
        (((start 9).eval rebinding).1, { ((start 9).eval rebinding).2 with depth := 10 }) := by
  have he : ((start 9).eval rebinding).1 = .error (.fault (.notPair "CAR")) := by cbv
  have hb : (start 9).machine.env.lookup? "begin" = some (.native .begin) := by cbv
  have hd : (Script.ofText rebinding).defect = none := by cbv
  have hl : (Script.ofText rebinding).forms.length = 4 := by cbv
  have hne : (Script.ofText rebinding).forms ≠ [] := by
    intro hn
    rw [hn] at hl
    cases hl
  exact ⟨he, (text_in_begin (start 9) rebinding hb hd hne).1⟩

end Session

end DynamicLisp
