import DynamicLisp.Text.Decimal

/-!
Signed decimal numerals: how they are spelled, their value, and the length up to which they are
read and written.
-/
namespace DynamicLisp.Text

/-- A numeral as spelled: whether it bears a minus sign, and the values of its digits in order. -/
structure Numeral where
  negative : Bool
  digits : List Nat

namespace Numeral

/-- The most digits with which a number is read or written. -/
def maxDigits : Nat := 4300

/-- The number that a row of digits spells by place. -/
def magnitude (digits : List Nat) : Nat :=
  digits.foldl (fun n d => 10 * n + d) 0

/-- The integer spelled. -/
def value (n : Numeral) : Int :=
  if n.negative then -(magnitude n.digits : Int) else magnitude n.digits

/-- Splits off a sign, if there is one, and tells whether it is a minus. -/
def splitSign : List Char → Bool × List Char
  | '-' :: cs => (true, cs)
  | '+' :: cs => (false, cs)
  | cs => (false, cs)

/-- The value of each digit of a row of ASCII digits that has at least one. -/
def plainDigits? (cs : List Char) : Option (List Nat) :=
  if cs.isEmpty then none else cs.mapM asciiDigit?

/-- Reads a numeral of ASCII digits with an optional sign and nothing else. -/
def ofPlain? (cs : List Char) : Option Numeral :=
  (plainDigits? (splitSign cs).2).map fun ds => ⟨(splitSign cs).1, ds⟩

/-- The value of each digit of a row of digits of any script; an underscore may stand between two. -/
def groupedDigits? : List Char → Option (List Nat)
  | [] => none
  | [c] => (digit? c).map ([·])
  | c :: '_' :: cs => do return (← digit? c) :: (← groupedDigits? cs)
  | c :: cs => do return (← digit? c) :: (← groupedDigits? cs)

/-- Reads a numeral of digits of any script, grouped by underscores, with an optional sign. -/
def ofGrouped? (cs : List Char) : Option Numeral :=
  (groupedDigits? (splitSign cs).2).map fun ds => ⟨(splitSign cs).1, ds⟩

/-- Whether the numeral is too long to be read. -/
def tooLong (n : Numeral) : Bool :=
  maxDigits < n.digits.length

end Numeral

/-- Whether an integer is short enough to be written in decimal. -/
def isWritable (n : Int) : Bool :=
  n.natAbs < Nat.pow 10 Numeral.maxDigits

end DynamicLisp.Text
