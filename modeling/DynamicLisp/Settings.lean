import DynamicLisp.Text.Blank
import DynamicLisp.Text.Numeral

/-!
Settings taken from variables of the surroundings: the level from which diagnostics are shown, and
a limit on recursion. A setting that cannot be understood counts as not given.
-/
namespace DynamicLisp

/-- The variables of the surroundings that are set. -/
abbrev Variables := String → Option String

namespace Settings

/-- The text of a variable without blanks around it, unless nothing is left. -/
def text? (vars : Variables) (name : String) : Option (List Char) :=
  (vars name).bind fun s =>
    let cs := Text.trim s.toList
    if cs.isEmpty then none else some cs

/-- The levels of diagnostics by name. -/
def levels : List (String × Nat) :=
  [("CRITICAL", 50), ("FATAL", 50), ("ERROR", 40), ("WARNING", 30), ("WARN", 30), ("INFO", 20),
    ("DEBUG", 10), ("NOTSET", 0)]

/-- The level at which events are reported. -/
def debugLevel : Nat := 10

/-- The level unless another is set. -/
def defaultLevel : Nat := 30

/-- The ASCII capital of a letter, also of the two letters beyond ASCII that have one. -/
def capital (c : Char) : Char :=
  if c = 'ı' then 'I'
  else if c = 'ſ' then 'S'
  else c.toUpper

/-- The level from which diagnostics are shown. -/
def logLevel (vars : Variables) : Nat :=
  ((text? vars "SCHEMELET_LOG_LEVEL").bind fun cs =>
    levels.lookup (String.ofList (cs.map capital))).getD defaultLevel

/-- The number that a setting spells, if it is positive and not too long. -/
def positive? (cs : List Char) : Option Nat :=
  (Text.Numeral.ofGrouped? cs).bind fun n =>
    if !n.tooLong && 0 < n.value then some n.value.toNat else none

/-- The limit on recursion, if one is set. -/
def recursionLimit? (vars : Variables) : Option Nat :=
  (text? vars "SCHEMELET_RECURSION_LIMIT").bind positive?

end Settings

end DynamicLisp
