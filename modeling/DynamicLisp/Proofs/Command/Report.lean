import DynamicLisp.Command.Run

/-! What a command reports. The ending of the program decides: its displays are written, or its
fault is told in one line, or the command breaks off. Where the limit on recursion is refused or
there is no program, nothing is written at all. -/
namespace DynamicLisp.Command
variable {host : Host} {args : Arguments} {program : String} {depth : Nat}

theorem run_of_parse {argv : List String} (h : Arguments.parse argv = .ok args) :
    run host argv = execute host args := by
  rw [run, h]

/-- A limit that is refused breaks the command off, whatever its program is. -/
theorem execute_of_refused {d : LimitDefect} (h : host.nesting = .error d) :
    (execute host args).outcome = .error (.limit d) ∧ (execute host args).output = "" ∧
      (execute host args).diagnostics = "" := by
  simp [execute, h]

theorem execute_of_failure {f : Failure} (hn : host.nesting = .ok depth)
    (hf : args.source.fetch host = .error f) :
    (execute host args).outcome = .error f ∧ (execute host args).output = "" ∧
      (execute host args).diagnostics = "" := by
  simp [execute, hn, hf]

/-! ### Programs that are run -/

section Run
variable (hn : host.nesting = .ok depth) (hf : args.source.fetch host = .ok program)
include hn hf

theorem execute_of_displays {ds : List String}
    (hr : (evaluate depth args.session program).1 = .ok ds) :
    (execute host args).outcome = .ok 0 ∧
      (execute host args).output = String.join (ds.map fun d => d ++ "\n") := by
  simp [execute, hn, hf, hr, lines]

/-- Nothing is written of a program that does not end with a result. -/
theorem output_of_halt {e : Halt} (hr : (evaluate depth args.session program).1 = .error e) :
    (execute host args).output = "" := by
  cases e <;> simp [execute, hn, hf, hr]

/-- A fault is told in the last line of the diagnostics; what stands in front of it consists of
lines too. -/
theorem execute_of_fault {f : Fault}
    (hr : (evaluate depth args.session program).1 = .error (.fault f)) :
    (execute host args).outcome = .ok 1 ∧
      ∃ log : List String, (execute host args).diagnostics =
        String.join (log.map fun line => line ++ "\n") ++ "error: " ++ f.message ++ "\n" := by
  have hline : lines ["error: " ++ f.message] = "error: " ++ f.message ++ "\n" := by
    simp [lines]
  simp only [execute, hn, hf, hr, hline, true_and]
  generalize (if args.verbose then _ else _ : Nat) = level
  split
  · exact ⟨_, by rw [lines, String.append_assoc, String.append_assoc, String.append_assoc]⟩
  · exact ⟨[], by simp⟩

/-- Whatever else ends a program breaks the command off. -/
theorem outcome_of_halt {e : Halt} (hr : (evaluate depth args.session program).1 = .error e)
    (he : ∀ f, e ≠ .fault f) : (execute host args).outcome = .error (.halt e) := by
  cases e with
  | fault f => exact (he f rfl).elim
  | _ => simp [execute, hn, hf, hr]

theorem outcome_of_error {e : Halt} (hr : (evaluate depth args.session program).1 = .error e) :
    (∃ f, e = .fault f ∧ (execute host args).outcome = .ok 1) ∨
      (execute host args).outcome = .error (.halt e) := by
  cases e with
  | fault f => exact .inl ⟨f, rfl, (execute_of_fault hn hf hr).1⟩
  | _ => exact .inr (outcome_of_halt hn hf hr (by simp))

/-- The exit status is 0 just where the program ends with results. -/
theorem outcome_eq_zero_iff : (execute host args).outcome = .ok 0 ↔
    ∃ ds, (evaluate depth args.session program).1 = .ok ds := by
  constructor
  · intro ho
    cases hr : (evaluate depth args.session program).1 with
    | ok ds => exact ⟨ds, rfl⟩
    | error e =>
      rcases outcome_of_error hn hf hr with ⟨_, _, h⟩ | h
      all_goals cases h.symm.trans ho
  · rintro ⟨ds, hr⟩
    exact (execute_of_displays hn hf hr).1

/-- The exit status is 1 just where the program ends with a fault. -/
theorem outcome_eq_one_iff : (execute host args).outcome = .ok 1 ↔
    ∃ f, (evaluate depth args.session program).1 = .error (.fault f) := by
  constructor
  · intro ho
    cases hr : (evaluate depth args.session program).1 with
    | ok ds => cases (execute_of_displays hn hf hr).1.symm.trans ho
    | error e =>
      rcases outcome_of_error hn hf hr with ⟨f, rfl, _⟩ | h
      · exact ⟨f, rfl⟩
      · cases h.symm.trans ho
  · rintro ⟨f, hr⟩
    exact (execute_of_fault hn hf hr).1

/-- A program that is run gives no other exit status. -/
theorem eq_zero_or_one_of_outcome {status : Nat} (ho : (execute host args).outcome = .ok status) :
    status = 0 ∨ status = 1 := by
  cases hr : (evaluate depth args.session program).1 with
  | ok ds =>
    cases (execute_of_displays hn hf hr).1.symm.trans ho
    exact .inl rfl
  | error e =>
    rcases outcome_of_error hn hf hr with ⟨_, _, h⟩ | h
    all_goals cases h.symm.trans ho
    exact .inr rfl

end Run

/-- Something is written only of a program that ends with results. -/
theorem output_eq (host : Host) (args : Arguments) :
    (execute host args).output = "" ∨
      ∃ depth program ds, (evaluate depth args.session program).1 = .ok ds ∧
        (execute host args).output = String.join (ds.map fun d => d ++ "\n") := by
  cases hn : host.nesting with
  | error d => exact .inl (execute_of_refused hn).2.1
  | ok depth =>
    cases hf : args.source.fetch host with
    | error f => exact .inl (execute_of_failure hn hf).2.1
    | ok program =>
      cases hr : (evaluate depth args.session program).1 with
      | error e => exact .inl (output_of_halt hn hf hr)
      | ok ds => exact .inr ⟨depth, program, ds, hr, (execute_of_displays hn hf hr).2⟩

end DynamicLisp.Command
