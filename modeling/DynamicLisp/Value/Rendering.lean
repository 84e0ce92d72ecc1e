import DynamicLisp.Text.Quoted
import DynamicLisp.Value.Basic

/-!
The three texts of a value: its display, which users see as a result; its inspection, which tells
its structure; and its description, which is the inspection except for names, foreign texts and
lambdas. A value that shows a number beyond writing has none of them.
-/
namespace DynamicLisp.Value

mutual

/-- The display of a value. -/
def display : Value → String
  | bool b => if b then "true" else "false"
  | int n => Text.writeInt n
  | nil => "nil"
  | native _ | lambda .. => "#<procedure>"
  | symbol _ name => name
  | text _ s => Text.quoted s
  | list _ items => "(" ++ " ".intercalate (displays items) ++ ")"
  | pair _ a d => "(" ++ a.display ++ " . " ++ d.display ++ ")"

/-- The displays of several values. -/
def displays : List Value → List String
  | [] => []
  | v :: vs => v.display :: displays vs

end

mutual

/-- The inspection of a value. -/
def inspect : Value → String
  | bool b => if b then "True" else "False"
  | int n => Text.writeInt n
  | nil => "nil"
  | native f => s!"<function {f.routine}>"
  | symbol _ name => s!"Symbol({Text.quoted name})"
  | text _ s => Text.quoted s
  | list _ items => "[" ++ ", ".intercalate (inspections items) ++ "]"
  | pair _ a d => "Pair(" ++ a.inspect ++ ", " ++ d.inspect ++ ")"
  | lambda _ name params _ => s!"<Lambda {name}/{params.length}>"

/-- The inspections of several values. -/
def inspections : List Value → List String
  | [] => []
  | v :: vs => v.inspect :: inspections vs

end

/-- The description of a value; that of a lambda is the form that defines it. -/
def describe : Value → String
  | symbol _ name => name
  | text _ s => s
  | lambda _ name params body =>
    "(define (" ++ " ".intercalate (name :: params) ++ ")" ++
      String.join (body.map fun form => " " ++ form.inspect) ++ ")"
  | v => v.inspect

mutual

/-- Whether all numbers that the display or the inspection shows can be written. -/
def isShowable : Value → Bool
  | int n => Text.isWritable n
  | list _ items => areShowable items
  | pair _ a d => a.isShowable && d.isShowable
  | _ => true

/-- Whether several values are all showable. -/
def areShowable : List Value → Bool
  | [] => true
  | v :: vs => v.isShowable && areShowable vs

end

/-- Whether all numbers that the description shows can be written. -/
def isDescribable : Value → Bool
  | lambda _ _ _ body => areShowable body
  | v => v.isShowable

/-- The display, unless it shows a number beyond writing. -/
def display? (v : Value) : Except Halt String :=
  if v.isShowable then .ok v.display else .error .longNumber

/-- The inspection, unless it shows a number beyond writing. -/
def inspect? (v : Value) : Except Halt String :=
  if v.isShowable then .ok v.inspect else .error .longNumber

/-- The description, unless it shows a number beyond writing. -/
def describe? (v : Value) : Except Halt String :=
  if v.isDescribable then .ok v.describe else .error .longNumber

end DynamicLisp.Value
