import DynamicLisp.Fault.Basic
import DynamicLisp.Settings
import DynamicLisp.Text.Utf8

/-!
The surroundings of a command, and why it can break off. A command sets the limit on recursion that
its settings name before it looks for a program; the host may refuse that limit, and what it allows
decides how deeply evaluations may be nested.
-/
namespace DynamicLisp.Command

/-- What a path leads to. -/
inductive FileState where
  | missing
  | directory
  | bytes (bs : List UInt8)

/-- Why a limit on recursion is refused: it is beyond what the host can hold, or that many calls
have been begun already. -/
inductive LimitDefect where
  | tooGreat
  | tooLow (limit calls : Nat)
  deriving DecidableEq, Repr

/-- What the user is told. -/
def LimitDefect.message : LimitDefect → String
  | tooGreat => "int too large to convert to C int"
  | tooLow limit calls =>
    s!"cannot set the recursion limit to {limit} at the recursion depth {calls}: " ++
      "the limit is too low"

/-- The greatest limit on recursion. -/
def greatestLimit : Nat := 2147483647

/-- How deeply evaluations may be nested under a limit that is set inside so many calls, by a host
that has room for so many evaluations. From the evaluation of a form to that of a body that it
applies it takes three calls. -/
def nestingUnder (calls room limit : Nat) : Except LimitDefect Nat :=
  if greatestLimit < limit then .error .tooGreat
  else if limit ≤ calls then .error (.tooLow limit calls)
  else .ok (min ((limit - calls) / 3) room)

/-- The surroundings of a command. Evaluations may be nested to the depth given, or, once a limit on
recursion is set, as deeply as that limit allows. -/
structure Host where
  settings : Variables
  input : String
  file : String → FileState
  depth : Nat
  limited : Nat → Except LimitDefect Nat

/-- How deeply evaluations may be nested, after the settings have been heeded. -/
def Host.nesting (host : Host) : Except LimitDefect Nat :=
  match Settings.recursionLimit? host.settings with
  | none => .ok host.depth
  | some limit => host.limited limit

/-- Why a command breaks off without an exit status of its own. -/
inductive Failure where
  | limit (d : LimitDefect)
  | halt (h : Halt)
  | missingFile (path : String)
  | directory (path : String)
  | notUtf8 (d : Text.Utf8.Defect)
  | noText
  deriving DecidableEq, Repr

/-- What the user is told. -/
def Failure.message : Failure → String
  | limit d => d.message
  | halt h => h.message
  | missingFile path => "[Errno 2] No such file or directory: " ++ Text.quoted path
  | directory path => "[Errno 21] Is a directory: " ++ Text.quoted path
  | notUtf8 d => d.message
  | noText => "'list' object has no attribute 'replace'"

end DynamicLisp.Command
