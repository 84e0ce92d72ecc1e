import DynamicLisp.Command.Source
import DynamicLisp.Session

/-!
The command: from arguments and surroundings to what is written. Results are written only when the
whole program has succeeded; a fault of the program is reported and makes the exit status 1.
-/
namespace DynamicLisp.Command

/-- The outcome of a command: its exit status or why it broke off, what it wrote, and the limits on
recursion that it asked for. -/
structure Report where
  outcome : Except Failure Nat
  output : String
  diagnostics : String
  limits : List Nat

/-- How the command is called. -/
def usage : String :=
  "usage: schemelet [-h] [-e EXPR] [--session] [-v] [file]\n"

/-- The answer to a call for help. -/
def help : String :=
  usage ++
  "\nEvaluate a schemelet program\n" ++
  "\npositional arguments:\n" ++
  "  file                  Program file (default: read stdin)\n" ++
  "\noptions:\n" ++
  "  -h, --help            show this help message and exit\n" ++
  "  -e EXPR, --expr EXPR  Program text to evaluate\n" ++
  "  --session             Evaluate every top-level form in one environment and\n" ++
  "                        print each result\n" ++
  "  -v, --verbose         Enable debug logging\n"

/-- Texts as lines. -/
def lines (texts : List String) : String :=
  String.join (texts.map (· ++ "\n"))

/-- Evaluates a program text as a session or as one form: the displays of its results and the
diagnostics. -/
def evaluate (depth : Nat) (session : Bool) (program : String) :
    Except Halt (List String) × List Event :=
  if session then
    let (r, s) := (Session.start depth).evalEach program
    -- All displays are made before the first is written. Writing each as soon as it is made comes
    -- to the same: no value that an evaluation returns is without one (`display?_of_returned`).
    (r.bind fun vs => vs.mapM Value.display?, s.events)
  else
    let (r, events) := Program.run program depth
    (r.map ([·]), events)

/-- Runs a program with given arguments. The limit on recursion comes first: where it is refused,
no program is looked for. -/
def execute (host : Host) (args : Arguments) : Report :=
  let level := if args.verbose then Settings.debugLevel else Settings.logLevel host.settings
  let limits := (Settings.recursionLimit? host.settings).toList
  match host.nesting with
  | .error d => ⟨.error (.limit d), "", "", limits⟩
  | .ok depth =>
    match args.source.fetch host with
    | .error f => ⟨.error f, "", "", limits⟩
    | .ok program =>
      let (r, events) := evaluate depth args.session program
      let diagnostics := if level ≤ Settings.debugLevel then lines (events.map Event.line) else ""
      match r with
      | .ok displays => ⟨.ok 0, lines displays, diagnostics, limits⟩
      | .error (.fault f) => ⟨.ok 1, "", diagnostics ++ lines ["error: " ++ f.message], limits⟩
      | .error h => ⟨.error (.halt h), "", diagnostics, limits⟩

/-- Runs the command. -/
def run (host : Host) (argv : List String) : Report :=
  match Arguments.parse argv with
  | .error .help => ⟨.ok 0, help, "", []⟩
  | .error (.misuse m) => ⟨.ok 2, "", usage ++ lines ["schemelet: error: " ++ m.message], []⟩
  | .ok args => execute host args

end DynamicLisp.Command
