import DynamicLisp.Command.Switch
import DynamicLisp.Text.Decimal

/-!
Words of the command line: what each argument looks like. A long option may be cut as long as it
stays unambiguous; a short one may have text attached. A dash in front does not make an option of a
negative number or of an argument with a space, and after the divider nothing is an option.
-/
namespace DynamicLisp.Command

/-- An argument by what it looks like; to an option a text may be attached, directly or after an
equals sign. -/
inductive Word where
  | operand (text : String)
  | divider
  | switch (o : Switch) (short : Bool) (attached : Option (List Char))
  | unknown (text : String)

namespace Word

/-- Whether an argument is meant as an option. -/
def isOption : Word → Bool
  | switch .. | unknown _ => true
  | _ => false

/-- The argument itself, if it is not an option of the command. -/
def text : Word → String
  | operand text | unknown text => text
  | divider => "--"
  | switch .. => ""

/-- Whether a text is a minus sign with a number, which may have a fraction, and perhaps a final
line end. -/
def isNegativeNumber : List Char → Bool
  | '-' :: cs =>
    let number := if cs.getLast? = some '\n' then cs.dropLast else cs
    let isDigit := fun c => (Text.digit? c).isSome
    match number.dropWhile isDigit with
    | [] => !number.isEmpty
    | '.' :: fraction => !fraction.isEmpty && fraction.all isDigit
    | _ => false
  | _ => false

/-- Cuts a text at its first equals sign. -/
def splitEquals (cs : List Char) : List Char × Option (List Char) :=
  match cs.dropWhile (· ≠ '=') with
  | [] => (cs, none)
  | _ :: text => (cs.takeWhile (· ≠ '='), some text)

/-- The argument `arg`, which starts with a dash, if it is no option as it stands. -/
def ofUnlisted (arg : String) : Word :=
  if isNegativeNumber arg.toList || arg.toList.contains ' ' then .operand arg else .unknown arg

/-- An argument that starts with two dashes, by the long options of which it is the beginning. -/
def ofLong (arg : String) : Except Misuse Word :=
  let (name, text) := splitEquals arg.toList
  match Switch.spellings.filter fun s => name.isPrefixOf s.1.toList with
  | [] => .ok (ofUnlisted arg)
  | [s] => .ok (.switch s.2 false text)
  | several => .error (.ambiguous arg (several.map (·.1)))

/-- An argument that starts with one dash, by the short option that follows. -/
def ofShort (arg : String) : Word :=
  match Switch.ofSpelling? (String.ofList (arg.toList.take 2)) with
  | some o => .switch o true (some (arg.toList.drop 2))
  | none => ofUnlisted arg

/-- Tells what an argument is that stands before the divider. -/
def ofArgument (arg : String) : Except Misuse Word :=
  match arg.toList with
  | '-' :: c :: cs =>
    match Switch.ofSpelling? arg with
    | some o => .ok (.switch o (c ≠ '-') none)
    | none =>
      match splitEquals ('-' :: c :: cs) with
      | (name, some text) =>
        match Switch.ofSpelling? (String.ofList name) with
        | some o => .ok (.switch o (c ≠ '-') (some text))
        | none => if c = '-' then ofLong arg else .ok (ofShort arg)
      | (_, none) => if c = '-' then ofLong arg else .ok (ofShort arg)
  | _ => .ok (.operand arg)

/-- Tells what each argument is; after the divider all are operands. -/
def ofArguments : List String → Except Misuse (List Word)
  | [] => .ok []
  | arg :: args =>
    if arg = "--" then .ok (.divider :: args.map .operand)
    else do return (← ofArgument arg) :: (← ofArguments args)

end Word

end DynamicLisp.Command
