import DynamicLisp.Command.Word

/-!
Arguments of the command line. Short flags may share a dash, a value may follow its option directly,
after an equals sign or as the next argument, and one file may be named. The last of several values
counts; what nothing wants is reported together at the end.
-/
namespace DynamicLisp.Command

/-- How the options in one argument end. -/
inductive Ending where
  | complete
  | value (text : String)
  | awaitsValue

/-- The options in one argument: flags in order, then perhaps the expression. -/
structure Cluster where
  flags : List Switch
  ending : Ending

namespace Cluster

/-- Option `o` after some flags in the same argument, with the text attached to it. A text attached
to a short flag, even after an equals sign, is a row of further short options. -/
def ofSwitch (flags : List Switch) (o : Switch) (short : Bool) (attached : Option (List Char)) :
    Except Misuse Cluster :=
  match attached with
  | none => .ok (if o.takesValue then ⟨flags, .awaitsValue⟩ else ⟨flags ++ [o], .complete⟩)
  | some text =>
    if o.takesValue then .ok ⟨flags, .value (String.ofList text)⟩
    else match text with
      | [] => .error (.valueIgnored o "")
      | c :: cs =>
        match short, Switch.ofSpelling? (String.ofList ['-', c]) with
        | true, some p =>
          match cs with
          | [] => ofSwitch (flags ++ [o]) p true none
          | d :: ds => ofSwitch (flags ++ [o]) p true (some (d :: ds))
        | _, _ => .error (.valueIgnored o (String.ofList (c :: cs)))
termination_by (attached.map List.length).getD 0

end Cluster

/-- The program text given with an option. The divider is no value, so where it is attached to the
option no text remains. -/
inductive Expression where
  | text (s : String)
  | missing
  deriving DecidableEq, Repr

/-- What a value says. -/
def Expression.ofValue (value : String) : Expression :=
  if value = "--" then .missing else .text value

/-- What the arguments ask for. -/
structure Arguments where
  file : Option String
  expression : Option Expression
  session : Bool
  verbose : Bool
  deriving DecidableEq, Repr

namespace Arguments

/-- No arguments. -/
def empty : Arguments := ⟨none, none, false, false⟩

/-- Heeds an option that has no value. -/
def flag (a : Arguments) : Switch → Except Refusal Arguments
  | .help => .error .help
  | .expression => .ok a
  | .session => .ok { a with session := true }
  | .verbose => .ok { a with verbose := true }

/-- The arguments taken so far, and those that nothing wants. -/
structure Progress where
  taken : Arguments
  extra : List String

namespace Progress

/-- Puts an argument aside. -/
def putAside (p : Progress) (arg : String) : Progress :=
  { p with extra := p.extra ++ [arg] }

/-- Takes the file. -/
def takeFile (p : Progress) (path : String) : Progress :=
  { p with taken := { p.taken with file := some path } }

/-- Takes the expression. -/
def takeExpression (p : Progress) (value : String) : Progress :=
  { p with taken := { p.taken with expression := some (.ofValue value) } }

/-- Heeds flags in order. -/
def takeFlags (p : Progress) (flags : List Switch) : Except Refusal Progress := do
  return { p with taken := ← flags.foldlM flag p.taken }

/-- Gives the operands after the last option to the file, if it is still wanted. -/
def finish (p : Progress) (ws : List Word) : Progress :=
  if p.taken.file.isSome then { p with extra := p.extra ++ ws.map Word.text }
  else match ws with
    | .divider :: .operand path :: ws | .operand path :: .divider :: ws | .operand path :: ws =>
      { p.takeFile path with extra := p.extra ++ ws.map Word.text }
    | _ => p

end Progress

/-- Goes through the words from left to right. -/
def take (p : Progress) : List Word → Except Refusal Progress
  | [] => .ok p
  | .divider :: ws => .ok (p.finish (.divider :: ws))
  | .operand text :: ws =>
    if !ws.any Word.isOption then .ok (p.finish (.operand text :: ws))
    else if p.taken.file.isSome then take (p.putAside text) ws
    else take (p.takeFile text) ws
  | .unknown text :: ws => take (p.putAside text) ws
  | .switch o short attached :: ws =>
    match Cluster.ofSwitch [] o short attached with
    | .error m => .error (.misuse m)
    | .ok c =>
      match c.ending with
      | .complete => do take (← p.takeFlags c.flags) ws
      | .value text => do take ((← p.takeFlags c.flags).takeExpression text) ws
      | .awaitsValue =>
        match ws with
        | .operand text :: ws => do take ((← p.takeFlags c.flags).takeExpression text) ws
        | _ => .error (.misuse (.valueMissing .expression))

/-- Understands the arguments of a command line. -/
def parse (args : List String) : Except Refusal Arguments := do
  let p ← take ⟨empty, []⟩ (← (Word.ofArguments args).mapError .misuse)
  if p.extra.isEmpty then return p.taken
  throw (.misuse (.unrecognized p.extra))

end Arguments

end DynamicLisp.Command
