import Mathlib
import DynamicLisp.Proofs.Command.Arguments
import DynamicLisp.Proofs.Command.Report
import DynamicLisp.Proofs.Reading.Tokens
import DynamicLisp.Proofs.Text.Utf8

/-! Ways to deliver a program. Main statement: a program given inline, in a file or as input comes
to the same; what a file does to its line ends is lost on the tokens. -/
namespace DynamicLisp

/-- A line end is blank however it is written, so the tokens of a text do not depend on it. -/
theorem Token.scan_unifyLineEnds (word cs : List Char) :
    scan word (Command.unifyLineEnds cs) = scan word cs := by
  have hr : Text.isBlank '\r' := by decide
  have hn : Text.isBlank '\n' := by decide
  fun_induction Command.unifyLineEnds cs generalizing word with
  | case1 cs ih =>
    rw [scan, if_pos hn, ih, scan, if_pos hr, scan, if_pos hn]
    rfl
  | case2 cs _ ih => rw [scan, if_pos hn, ih, scan, if_pos hr]
  | case3 c cs _ _ ih =>
    obtain ⟨ws, begun, hs⟩ := scan_cons word c
    rw [hs, hs, ih]
  | case4 => rfl

namespace Command
variable {host host' : Host} {args args' : Arguments} {a b : String}

/-- A text with every line end written as a line feed. -/
def unified (text : String) : String :=
  String.ofList (unifyLineEnds text.toList)

theorem ofText_unified (text : String) : Token.ofText (unified text) = Token.ofText text := by
  rw [Token.ofText_eq_scan, Token.ofText_eq_scan, unified, String.toList_ofList,
    Token.scan_unifyLineEnds]

theorem readFile_of_utf8 {path text : String}
    (h : host.file path = .bytes text.toUTF8.data.toList) :
    readFile host path = .ok (unified text) := by
  rw [readFile, h]
  simp only [Text.Utf8.decode_toUTF8]
  rfl

/-- Only the tokens of a program are looked at. -/
theorem evaluate_congr (depth : Nat) (session : Bool) (h : Token.ofText a = Token.ofText b) :
    evaluate depth session a = evaluate depth session b := by
  simp only [evaluate, Session.evalEach, Script.ofText, Program.run, h]

/-- A report is settled by the settings and how far evaluations may be nested under them, by what
is asked for, and by the tokens of the program. -/
theorem execute_congr (hs : host.settings = host'.settings) (hn : host.nesting = host'.nesting)
    (hsession : args.session = args'.session) (hverbose : args.verbose = args'.verbose)
    (ha : args.source.fetch host = .ok a) (hb : args'.source.fetch host' = .ok b)
    (h : Token.ofText a = Token.ofText b) :
    execute host args = execute host' args' := by
  simp only [execute, hs, hn, hsession, hverbose, ha, hb, evaluate_congr _ _ h]

/-- It makes no difference how a program is delivered. With the same settings, on a host that sets
limits on recursion or refuses them in the same way, and between the same flags, a text other than
the divider is run in the same way behind `--expr=`, from a file that holds it in UTF-8 and has a
name that does not start with a dash, and as input, perhaps with its line ends written as line
feeds: the exit status or failure, the output, the diagnostics and the limits agree. In none of
these ways are the arguments refused. -/
theorem delivery_immaterial (settings : Variables) (depth : Nat)
    (limited : Nat → Except LimitDefect Nat) (program path : String)
    (before behind : List String) (input input' input'' : String)
    (files files' files'' : String → FileState) (hprogram : program ≠ "--")
    (hbefore : ∀ f ∈ before, IsFlag f) (hbehind : ∀ f ∈ behind, IsFlag f)
    (hpath : path.toList.head? ≠ some '-')
    (hfile : files' (normalPath path) = .bytes program.toUTF8.data.toList)
    (hinput : input'' = program ∨ input'' = unified program) :
    run ⟨settings, input, files, depth, limited⟩ (before ++ ["--expr=" ++ program] ++ behind) =
        execute ⟨settings, input, files, depth, limited⟩
          { Arguments.empty.heed (before ++ behind) with expression := some (.text program) } ∧
      run ⟨settings, input', files', depth, limited⟩ (before ++ [path] ++ behind) =
        run ⟨settings, input, files, depth, limited⟩
          (before ++ ["--expr=" ++ program] ++ behind) ∧
      run ⟨settings, input'', files'', depth, limited⟩ (before ++ behind) =
        run ⟨settings, input, files, depth, limited⟩
          (before ++ ["--expr=" ++ program] ++ behind) := by
  have hinline := Arguments.parse_inline hbefore hbehind hprogram
  have hflags : ∀ f ∈ before ++ behind, IsFlag f := fun f hf =>
    (List.mem_append.mp hf).elim (hbefore f) (hbehind f)
  refine ⟨run_of_parse hinline, ?_, ?_⟩
  · rw [run_of_parse hinline, run_of_parse (Arguments.parse_file hbefore hbehind hpath)]
    exact execute_congr rfl rfl rfl rfl (readFile_of_utf8 hfile) rfl (ofText_unified program)
  · rw [run_of_parse hinline, run_of_parse (Arguments.parse_flags hflags)]
    have ht : Token.ofText input'' = Token.ofText program := by
      rcases hinput with rfl | rfl
      · rfl
      · exact ofText_unified program
    exact execute_congr rfl rfl rfl rfl rfl rfl ht

/-! Lines end in three ways, and one character takes more than one byte. -/

abbrev threeLines : String :=
  "(define (é x)\r\n  '(x))\r(é\n 2"

theorem delivery_immaterial_threeLines :
    run ⟨fun _ => none, "", fun _ => .bytes threeLines.toUTF8.data.toList, 9, .ok⟩
        (["-v"] ++ ["p.scm"] ++ ["--session"]) =
      run ⟨fun _ => none, "", fun _ => .missing, 9, .ok⟩
        (["-v"] ++ ["--expr=" ++ threeLines] ++ ["--session"]) ∧
    run ⟨fun _ => none, threeLines, fun _ => .missing, 9, .ok⟩ (["-v"] ++ ["--session"]) =
      run ⟨fun _ => none, "", fun _ => .missing, 9, .ok⟩
        (["-v"] ++ ["--expr=" ++ threeLines] ++ ["--session"]) := by
  have hv : ∀ f ∈ ["-v"], IsFlag f := List.forall_mem_singleton.mpr (.inr rfl)
  have hs : ∀ f ∈ ["--session"], IsFlag f := List.forall_mem_singleton.mpr (.inl rfl)
  exact (delivery_immaterial (fun _ => none) 9 .ok threeLines "p.scm" ["-v"] ["--session"] "" ""
    threeLines (fun _ => .missing) (fun _ => .bytes threeLines.toUTF8.data.toList)
    (fun _ => .missing) (by decide) hv hs (by decide) rfl (.inl rfl)).2

end Command

end DynamicLisp
