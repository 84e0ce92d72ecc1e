import DynamicLisp.Text.Quoted

/-!
The options of the command line, and what can be wrong with its arguments.
-/
namespace DynamicLisp.Command

/-- The options. -/
inductive Switch where
  | help
  | expression
  | session
  | verbose
  deriving DecidableEq, Repr

namespace Switch

/-- The spellings of all options. -/
def spellings : List (String × Switch) :=
  [("-h", help), ("--help", help), ("-e", expression), ("--expr", expression),
    ("--session", session), ("-v", verbose), ("--verbose", verbose)]

/-- The option of a given spelling. -/
def ofSpelling? (s : String) : Option Switch :=
  spellings.lookup s

/-- Whether an option has a value. -/
def takesValue : Switch → Bool
  | expression => true
  | _ => false

/-- All spellings of an option. -/
def title (o : Switch) : String :=
  "/".intercalate ((spellings.filter (·.2 = o)).map (·.1))

end Switch

/-- What can be wrong with the arguments. -/
inductive Misuse where
  | ambiguous (arg : String) (candidates : List String)
  | valueMissing (o : Switch)
  | valueIgnored (o : Switch) (text : String)
  | unrecognized (args : List String)
  deriving DecidableEq, Repr

/-- What the user is told. -/
def Misuse.message : Misuse → String
  | ambiguous arg candidates =>
    s!"ambiguous option: {arg} could match " ++ ", ".intercalate candidates
  | valueMissing o => s!"argument {o.title}: expected one argument"
  | valueIgnored o text => s!"argument {o.title}: ignored explicit argument " ++ Text.quoted text
  | unrecognized args => "unrecognized arguments: " ++ " ".intercalate args

/-- Why no program is run. -/
inductive Refusal where
  | help
  | misuse (m : Misuse)
  deriving DecidableEq, Repr

end DynamicLisp.Command
