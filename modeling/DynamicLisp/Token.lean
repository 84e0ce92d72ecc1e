import DynamicLisp.Text.Blank

/-!
Tokens. Blanks separate tokens; a parenthesis is a token of its own, and a quote mark ends the
token in which it stands.
-/
namespace DynamicLisp

/-- A unit of program text, not further divided by layout. -/
abbrev Token := String

namespace Token

/-- What a token does in a text. -/
inductive Role where
  | opening
  | closing
  | quote
  | atom
  deriving DecidableEq, Repr

/-- The role of a token. -/
def role (t : Token) : Role :=
  if t = "(" then .opening
  else if t = ")" then .closing
  else if t = "'" then .quote
  else .atom

/-- The role tells the three marks from each other and from all other tokens. -/
theorem text_of_role (t : Token) :
    match t.role with
    | .opening => t = "("
    | .closing => t = ")"
    | .quote => t = "'"
    | .atom => t ≠ "(" ∧ t ≠ ")" ∧ t ≠ "'" := by
  unfold role
  by_cases ho : t = "("
  · simp [ho]
  · by_cases hc : t = ")"
    · simp [hc]
    · by_cases hq : t = "'" <;> simp [ho, hc, hq]

/-- A character with the blanks that set it off from its neighbours. -/
def pad (c : Char) : List Char :=
  if c = '(' || c = ')' then [' ', c, ' ']
  else if c = '\x27' then [c, ' ']
  else [c]

/-- The tokens of a text, in order. -/
def ofText (source : String) : List Token :=
  (Text.words (source.toList.flatMap pad)).map String.ofList

end Token

end DynamicLisp
