import Mathlib
import DynamicLisp.Proofs.Command.Report
import DynamicLisp.Proofs.Session.FirstForm
import DynamicLisp.Proofs.Session.Interleaving
import DynamicLisp.Proofs.Session.Messages

/-! What a command writes. Main statement: it writes all results of the program or none, and tells
the first fault instead. -/
namespace DynamicLisp.Command
open Eval (Passes Stops stops_or_passes)

/-- The results of a program text in order: the values of all its forms if it is run as a session,
else the value of its first form. -/
inductive Gives (depth : Nat) (program : String) : (session : Bool) → List Value → Prop where
  | each {forms vs : List Value} {m : Machine}
      (hr : Script.Reads (Token.ofText program) ⟨forms, none⟩)
      (h : Passes (Eval.evaluate depth) forms Catalog.machine vs m) : Gives depth program true vs
  | first {form v : Value} {rest : List Token} {m : Machine}
      (hr : Reading.ofTokens (Token.ofText program) = ⟨.ok form, rest⟩)
      (h : (Eval.evaluate depth form).run Catalog.machine = (.ok v, m)) :
      Gives depth program false [v]

/-- What ends a program text first. In a session that is the first form that halts, or behind forms
that all give values a defect of the text; otherwise only the first form counts. -/
inductive Fails (depth : Nat) (program : String) : (session : Bool) → Halt → Prop where
  | form {forms : List Value} {defect : Option Halt} {e : Halt} {m : Machine}
      (hr : Script.Reads (Token.ofText program) ⟨forms, defect⟩)
      (h : Stops (Eval.evaluate depth) forms Catalog.machine e m) : Fails depth program true e
  | defect {forms vs : List Value} {e : Halt} {m : Machine}
      (hr : Script.Reads (Token.ofText program) ⟨forms, some e⟩)
      (h : Passes (Eval.evaluate depth) forms Catalog.machine vs m) : Fails depth program true e
  | unread {e : Halt} (hr : (Reading.ofTokens (Token.ofText program)).outcome = .error e) :
      Fails depth program false e
  | first {form : Value} {rest : List Token} {e : Halt} {m : Machine}
      (hr : Reading.ofTokens (Token.ofText program) = ⟨.ok form, rest⟩)
      (h : (Eval.evaluate depth form).run Catalog.machine = (.error e, m)) :
      Fails depth program false e

variable {depth : Nat} {program : String} {session : Bool}

private theorem evalEach_of_reads {s : Script} {r : Except Halt (List Value)} {m : Machine}
    (hr : Script.Reads (Token.ofText program) s)
    (h : (s.values depth).run Catalog.machine = (r, m)) :
    ((Session.start depth).evalEach program).1 = r := by
  obtain rfl := Script.reads_iff.mp hr
  exact congrArg Prod.fst h

private theorem perform_of_run {form : Value} {r : Except Halt Value} {m : Machine}
    (h : (Eval.evaluate depth form).run Catalog.machine = (r, m)) :
    ((Session.start depth).perform (Eval.evaluate depth form)).1 = r :=
  congrArg Prod.fst h

/-- The results come back from an evaluation, and show no name or text that breaks a line. -/
theorem Gives.returned {vs : List Value} (h : Gives depth program session vs) :
    ∀ v ∈ vs, Session.Returned v ∧ v.IsLined := by
  cases h with
  | each hr h =>
    have he := evalEach_of_reads hr (Script.run_of_passes h rfl).2
    have hl := Session.isLined_of_evalEach (.start depth) he
    exact fun v hv => ⟨.each (.start depth) he hv, hl v hv⟩
  | @first form v rest m hr h =>
    have hv : ((Program.value depth (Token.ofText program)).run Catalog.machine).1 = .ok v := by
      rw [Program.value_of_read hr, h]
    exact List.forall_mem_singleton.mpr ⟨.program hv, Program.isLined_of_value hv⟩

/-- A program that gives results is evaluated to their displays. -/
theorem Gives.evaluate {vs : List Value} (h : Gives depth program session vs) :
    (evaluate depth session program).1 = .ok (vs.map Value.display) := by
  have hv := h.returned
  cases h with
  | each hr h =>
    rw [Session.evaluate_session, evalEach_of_reads hr (Script.run_of_passes h rfl).2]
    rfl
  | first hr h =>
    have hd := Session.display?_of_returned (List.forall_mem_singleton.mp hv).1
    rw [Session.evaluate_program, Program.run_of_read hr, perform_of_run h, Except.bind, hd]
    rfl

theorem Fails.evaluate {e : Halt} (h : Fails depth program session e) :
    (evaluate depth session program).1 = .error e := by
  cases h with
  | form hr h =>
    rw [Session.evaluate_session, evalEach_of_reads hr (Script.run_of_stops h).2]
    rfl
  | defect hr h =>
    rw [Session.evaluate_session, evalEach_of_reads hr (Script.run_of_defect h rfl).2]
    rfl
  | unread hr =>
    rw [Session.evaluate_program, Program.run_of_refused hr]
    rfl
  | first hr h =>
    rw [Session.evaluate_program, Program.run_of_read hr, perform_of_run h]
    rfl

/-- Every program either gives results or fails. -/
theorem gives_or_fails (depth : Nat) (session : Bool) (program : String) :
    (∃ vs, Gives depth program session vs) ∨ ∃ e, Fails depth program session e := by
  cases session with
  | true =>
    have hr : Script.Reads (Token.ofText program) (Script.ofText program) :=
      Script.reads_iff.mpr rfl
    generalize Script.ofText program = s at hr
    obtain ⟨forms, defect⟩ := s
    rcases stops_or_passes (Eval.evaluate depth) forms Catalog.machine with
      ⟨e, m, h⟩ | ⟨vs, m, h⟩
    · exact .inr ⟨e, .form hr h⟩
    · cases defect with
      | none => exact .inl ⟨vs, .each hr h⟩
      | some e => exact .inr ⟨e, .defect hr h⟩
  | false =>
    generalize hr : Reading.ofTokens (Token.ofText program) = r
    obtain ⟨outcome, rest⟩ := r
    cases outcome with
    | error e => exact .inr ⟨e, .unread (by rw [hr])⟩
    | ok form =>
      generalize h : (Eval.evaluate depth form).run Catalog.machine = r
      obtain ⟨r, m⟩ := r
      cases r with
      | error e => exact .inr ⟨e, .first hr h⟩
      | ok v => exact .inl ⟨[v], .first hr h⟩

/-- What the evaluation of a program comes to tells which of the two it does. -/
theorem gives_iff : (∃ vs, Gives depth program session vs) ↔
    ∃ ds, (evaluate depth session program).1 = .ok ds := by
  constructor
  · rintro ⟨vs, hg⟩
    exact ⟨_, hg.evaluate⟩
  · rintro ⟨ds, hr⟩
    rcases gives_or_fails depth session program with hg | ⟨e, he⟩
    · exact hg
    · cases he.evaluate.symm.trans hr

theorem fails_iff {e : Halt} :
    Fails depth program session e ↔ (evaluate depth session program).1 = .error e := by
  refine ⟨Fails.evaluate, fun hr => ?_⟩
  rcases gives_or_fails depth session program with ⟨vs, hg⟩ | ⟨e', he⟩
  · cases hg.evaluate.symm.trans hr
  · cases he.evaluate.symm.trans hr
    exact he

theorem evaluate_eq_error_iff {e : Halt} : (evaluate depth session program).1 = .error e ↔
    if session then ((Session.start depth).evalEach program).1 = .error e
    else (Program.run program depth).1 = .error e := by
  cases session with
  | true =>
    rw [Session.evaluate_session, if_pos rfl]
    exact ⟨Primitive.map_eq_error, fun h => by rw [h]; rfl⟩
  | false =>
    rw [Session.evaluate_program, if_neg Bool.false_ne_true]
    exact ⟨Primitive.map_eq_error, fun h => by rw [h]; rfl⟩

/-- The fault with which a program fails is told on one line. -/
theorem Fails.isLine {f : Fault} (h : Fails depth program session (.fault f)) :
    Text.IsLine ("error: " ++ f.message) := by
  have he := evaluate_eq_error_iff.mp h.evaluate
  refine Text.IsLine.append (by decide) ?_
  cases session with
  | true => exact Session.isLine_of_text (.start depth) (.inr he)
  | false => exact Program.isLine_of_run he

variable {host : Host} {args : Arguments}

/-- The results of a program are written with each of them on one line. -/
theorem output_of_gives {vs : List Value} (hn : host.nesting = .ok depth)
    (hf : args.source.fetch host = .ok program) (h : Gives depth program args.session vs) :
    (execute host args).output = String.join (vs.map fun v => v.display ++ "\n") ∧
      ∀ v ∈ vs, v.display? = .ok v.display ∧ Text.IsLine v.display := by
  have hout := (execute_of_displays hn hf h.evaluate).2
  rw [List.map_map] at hout
  refine ⟨hout, fun v hv => ?_⟩
  obtain ⟨hr, hl⟩ := h.returned v hv
  exact ⟨Session.display?_of_returned hr, hl.isLine_display⟩

/-- Output is all or nothing. A command that is refused its limit on recursion, or that finds no
program, breaks off and writes nothing. In any other command, if the exit status is 0, the output is
the displays of the results of the program in order, each on a line of its own. If it is 1, there is
no output, whatever forms have given values before, and the last line of the diagnostics tells the
fault that ended the program. It is 1 just where the program, evaluated as a session or as one form,
ends with a fault, and there is no other exit status. -/
theorem all_or_nothing (host : Host) {argv : List String}
    (hargs : Arguments.parse argv = .ok args) :
    (∀ d, host.nesting = .error d → (run host argv).outcome = .error (.limit d) ∧
      (run host argv).output = "" ∧ (run host argv).diagnostics = "") ∧
    (∀ depth f, host.nesting = .ok depth → args.source.fetch host = .error f →
      (run host argv).outcome = .error f ∧ (run host argv).output = "" ∧
        (run host argv).diagnostics = "") ∧
    ∀ depth program, host.nesting = .ok depth → args.source.fetch host = .ok program →
      ((run host argv).outcome = .ok 0 → ∃ vs, Gives depth program args.session vs ∧
        (run host argv).output = String.join (vs.map fun v => v.display ++ "\n") ∧
        ∀ v ∈ vs, v.display? = .ok v.display ∧ Text.IsLine v.display) ∧
      ((run host argv).outcome = .ok 1 ↔ ∃ f, if args.session
        then ((Session.start depth).evalEach program).1 = .error (.fault f)
        else (Program.run program depth).1 = .error (.fault f)) ∧
      ((run host argv).outcome = .ok 1 → (run host argv).output = "" ∧
        ∃ (f : Fault) (log : List String), Fails depth program args.session (.fault f) ∧
          (run host argv).diagnostics =
            String.join (log.map fun line => line ++ "\n") ++ "error: " ++ f.message ++ "\n" ∧
          Text.IsLine ("error: " ++ f.message)) ∧
      ∀ status, (run host argv).outcome = .ok status → status = 0 ∨ status = 1 := by
  rw [run_of_parse hargs]
  refine ⟨fun d h => execute_of_refused h, fun depth f hn hf => execute_of_failure hn hf, ?_⟩
  intro depth program hn hf
  have hone := outcome_eq_one_iff hn hf
  refine ⟨fun ho => ?_, ?_, fun ho => ?_, fun _ => eq_zero_or_one_of_outcome hn hf⟩
  · obtain ⟨vs, hg⟩ := gives_iff.mpr ((outcome_eq_zero_iff hn hf).mp ho)
    exact ⟨vs, hg, output_of_gives hn hf hg⟩
  · simpa only [evaluate_eq_error_iff] using hone
  · obtain ⟨f, hr⟩ := hone.mp ho
    obtain ⟨log, hlog⟩ := (execute_of_fault hn hf hr).2
    have he : Fails depth program args.session (.fault f) := fails_iff.mpr hr
    exact ⟨output_of_halt hn hf hr, f, log, he, hlog, he.isLine⟩

/-! The second form has given a value before the third ends with a fault. If a limit on recursion is
asked for that is too great, it does not come to that. -/

abbrev threeForms : String :=
  "(define x 2) x (car x)"

abbrev bare (settings : Variables) : Host :=
  ⟨settings, "", fun _ => .missing, 9, nestingUnder 6 9⟩

theorem all_or_nothing_threeForms :
    (run (bare fun _ => none) ["--session", "--expr=" ++ threeForms]).outcome = .ok 1 ∧
      (run (bare fun _ => none) ["--session", "--expr=" ++ threeForms]).output = "" ∧
      (∃ log : List String,
        (run (bare fun _ => none) ["--session", "--expr=" ++ threeForms]).diagnostics =
          String.join (log.map fun line => line ++ "\n") ++ "error: CAR expects a pair\n") ∧
      (run (bare fun _ => some "99999999999") ["--session", "--expr=" ++ threeForms]).outcome =
        .error (.limit .tooGreat) := by
  have hargs : Arguments.parse ["--session", "--expr=" ++ threeForms] =
      .ok ⟨none, some (.text threeForms), true, false⟩ := by cbv
  have hend : ((Session.start 9).evalEach threeForms).1 = .error (.fault (.notPair "CAR")) := by
    cbv
  have hlimit : (bare fun _ => some "99999999999").nesting = .error .tooGreat := by cbv
  obtain ⟨_, hiff, hone, _⟩ :=
    (all_or_nothing (bare fun _ => none) hargs).2.2 9 threeForms rfl rfl
  have ho : (run (bare fun _ => none) ["--session", "--expr=" ++ threeForms]).outcome = .ok 1 :=
    hiff.mpr ⟨_, hend⟩
  obtain ⟨hout, f, log, hf, hlog, _⟩ := hone ho
  have he : ((Session.start 9).evalEach threeForms).1 = .error (.fault f) :=
    evaluate_eq_error_iff.mp hf.evaluate
  cases hend.symm.trans he
  refine ⟨ho, hout, ⟨log, hlog.trans ?_⟩, ?_⟩
  · simp only [String.append_assoc]
    rfl
  · exact ((all_or_nothing (bare fun _ => some "99999999999") hargs).1 _ hlimit).1

end DynamicLisp.Command
