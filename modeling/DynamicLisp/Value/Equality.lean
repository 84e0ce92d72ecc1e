import DynamicLisp.Value.Basic

/-!
The two equalities. `same` tells values apart by identity, except booleans and integers, which
compare by content; `equal` compares contents at every depth and ignores identities.
-/
namespace DynamicLisp.Value

/-- Whether two values are one and the same. -/
def same : Value → Value → Bool
  | bool a, bool b => a = b
  | int a, int b => a = b
  | nil, nil => true
  | native f, native g => f = g
  | symbol i _, symbol j _ => i = j
  | text i _, text j _ => i = j
  | list i _, list j _ => i = j
  | pair i _ _, pair j _ _ => i = j
  | lambda i _ _ _, lambda j _ _ _ => i = j
  | _, _ => false

mutual

/-- Whether two values are of one kind and have equal contents. -/
def equal : Value → Value → Bool
  | bool a, bool b => a = b
  | int a, int b => a = b
  | nil, nil => true
  | native f, native g => f = g
  | symbol _ a, symbol _ b => a = b
  | text _ a, text _ b => a = b
  | list _ xs, list _ ys => equalLists xs ys
  | pair _ a b, pair _ c d => equal a c && equal b d
  | lambda _ f ps xs, lambda _ g qs ys => f = g && ps = qs && equalLists xs ys
  | _, _ => false

/-- Whether two rows of values are of one length and pairwise equal. -/
def equalLists : List Value → List Value → Bool
  | [], [] => true
  | x :: xs, y :: ys => equal x y && equalLists xs ys
  | _, _ => false

end

end DynamicLisp.Value
