import DynamicLisp.Command.Arguments
import DynamicLisp.Command.Host

/-!
Where a program comes from: the command line itself, a file, or the input. Files are UTF-8, and
every way to end a line counts as a line feed. An expression without text gives no program.
-/
namespace DynamicLisp.Command

/-- The slashes at the front that a path keeps: one or two as they are, more as one. -/
def pathRoot : List Char → String
  | '/' :: '/' :: '/' :: _ => "/"
  | '/' :: '/' :: _ => "//"
  | '/' :: _ => "/"
  | _ => ""

/-- A path without empty steps and steps that stay in place. -/
def normalPath (path : String) : String :=
  let steps := (path.splitOn "/").filter fun step => step ≠ "" && step ≠ "."
  let text := pathRoot path.toList ++ "/".intercalate steps
  if text.isEmpty then "." else text

/-- A text with every line end written as a line feed. -/
def unifyLineEnds : List Char → List Char
  | '\r' :: '\n' :: cs => '\n' :: unifyLineEnds cs
  | '\r' :: cs => '\n' :: unifyLineEnds cs
  | c :: cs => c :: unifyLineEnds cs
  | [] => []

/-- The text of a file. -/
def readFile (host : Host) (path : String) : Except Failure String :=
  match host.file path with
  | .missing => .error (.missingFile path)
  | .directory => .error (.directory path)
  | .bytes bs =>
    match Text.Utf8.decode bs with
    | .ok s => .ok (String.ofList (unifyLineEnds s.toList))
    | .error d => .error (.notUtf8 d)

/-- A place that a program is taken from. -/
inductive Source where
  | inline (e : Expression)
  | file (path : String)
  | input
  deriving DecidableEq, Repr

/-- The source that arguments name: an expression, else a file, else the input. -/
def Arguments.source (a : Arguments) : Source :=
  match a.expression, a.file with
  | some e, _ => .inline e
  | none, some path => .file (normalPath path)
  | none, none => .input

/-- The program text that a source holds. -/
def Source.fetch (host : Host) : Source → Except Failure String
  | inline (.text s) => .ok s
  | inline .missing => .error .noText
  | file path => readFile host path
  | input => .ok host.input

end DynamicLisp.Command
