import DynamicLisp.Token
import DynamicLisp.Value.Basic

/-!
Reading forms from tokens. A form is an atom, a list in parentheses, or a quote mark with a list,
which stands for a call of `list` on its elements. Reading keeps the lists that are still open, so
each token is looked at once; what it leaves over is always shorter than what it was given.
-/
namespace DynamicLisp

/-- The form that one token spells: an integer if it is a numeral in range, else a symbol. -/
def Value.ofToken (t : Token) : Except Halt Value :=
  match Text.Numeral.ofPlain? t.toList with
  | none => .ok (.symbol .reader t)
  | some n =>
    if n.tooLong then .error (.longNumeral n.digits.length)
    else if Value.inRange n.value then .ok (.int n.value)
    else .ok (.symbol .reader t)

/-- The outcome of reading one form, and the tokens left over. -/
structure Reading where
  outcome : Except Halt Value
  rest : List Token

namespace Reading

/-- The symbol that a quote mark puts in front of its list. -/
def quoteHead : Value :=
  .symbol .reader "list"

/-- Reads on to the end of a form, of which the lists in `opened` are open, innermost first; the
elements of each are given last first. -/
def read : (opened : List (List Value)) → List Token → Reading
  | [], [] => ⟨.error (.fault .emptyProgram), []⟩
  | _ :: _, [] => ⟨.error (.fault .missingCloseParen), []⟩
  | opened, t :: ts =>
    match Token.role t with
    | .opening => read ([] :: opened) ts
    | .quote =>
      match ts with
      | [] => ⟨.error (.fault .quoteWithoutList), []⟩
      | u :: us =>
        if Token.role u = .opening then read ([quoteHead] :: opened) us
        else ⟨.error (.fault .quoteWithoutList), us⟩
    | .closing =>
      match opened with
      | [] => ⟨.error (.fault .unexpectedCloseParen), ts⟩
      | [items] => ⟨.ok (.list .reader items.reverse), ts⟩
      | items :: outer :: opened => read ((.list .reader items.reverse :: outer) :: opened) ts
    | .atom =>
      match Value.ofToken t, opened with
      | .error h, _ => ⟨.error h, ts⟩
      | .ok v, [] => ⟨.ok v, ts⟩
      | .ok v, items :: opened => read ((v :: items) :: opened) ts

/-- Reads one form from the front of the tokens. -/
def ofTokens (ts : List Token) : Reading :=
  read [] ts

/-- At least one token is used up, if there is one. -/
theorem length_rest_read (opened : List (List Value)) (ts : List Token) :
    (read opened ts).rest.length ≤ ts.length - 1 := by
  fun_induction read opened ts <;> simp_all <;> omega

theorem length_rest_ofTokens_cons (t : Token) (ts : List Token) :
    (ofTokens (t :: ts)).rest.length < (t :: ts).length :=
  Nat.lt_succ_of_le (length_rest_read [] (t :: ts))

end Reading

/-- A text read as far as possible: its forms, and what stopped the reading before the end. -/
structure Script where
  forms : List Value
  defect : Option Halt

namespace Script

/-- Reads form after form until the tokens end or one cannot be read. -/
def ofTokens : List Token → Script
  | [] => ⟨[], none⟩
  | t :: ts =>
    match (Reading.ofTokens (t :: ts)).outcome with
    | .error h => ⟨[], some h⟩
    | .ok form =>
      let tail := ofTokens (Reading.ofTokens (t :: ts)).rest
      ⟨form :: tail.forms, tail.defect⟩
termination_by ts => ts.length
decreasing_by exact Reading.length_rest_ofTokens_cons t ts

/-- Reads all forms of a text. -/
def ofText (source : String) : Script :=
  ofTokens (Token.ofText source)

end Script

end DynamicLisp
