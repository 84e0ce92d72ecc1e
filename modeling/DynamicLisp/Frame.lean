import DynamicLisp.Value.Rendering

/-!
Frames. A frame binds names to values and keeps them in the order in which they were first bound;
binding a name again replaces its value in place.
-/
namespace DynamicLisp

/-- The bindings of one scope, in order of first definition. -/
structure Frame where
  entries : List (String × Value)

namespace Frame

/-- The frame without bindings. -/
def empty : Frame := ⟨[]⟩

/-- The names bound, in order. -/
def names (f : Frame) : List String :=
  f.entries.map (·.1)

/-- The value bound to a name. -/
def lookup? (f : Frame) (name : String) : Option Value :=
  f.entries.lookup name

/-- Whether a name is bound. -/
def binds (f : Frame) (name : String) : Bool :=
  (f.lookup? name).isSome

/-- Rows of bindings with `name` bound to `v`, in its place if it has one and else at the end. -/
def put (name : String) (v : Value) : List (String × Value) → List (String × Value)
  | [] => [(name, v)]
  | b :: bs => if b.1 = name then (name, v) :: bs else b :: put name v bs

/-- Binds a name to a value. -/
def define (f : Frame) (name : String) (v : Value) : Frame :=
  ⟨put name v f.entries⟩

/-- The frame that binds each parameter to its argument, from left to right. -/
def ofParameters (params : List String) (args : List Value) : Frame :=
  (params.zip args).foldl (fun f b => f.define b.1 b.2) empty

private theorem lookup_put (name m : String) (v : Value) (bs : List (String × Value)) :
    (put name v bs).lookup m = if m = name then some v else bs.lookup m := by
  induction bs with
  | nil =>
    by_cases h : m = name
    · simp [put, h]
    · simp [put, List.lookup_cons, h, beq_eq_false_iff_ne.mpr h]
  | cons b bs ih =>
    obtain ⟨k, w⟩ := b
    by_cases hk : k = name
    · subst hk
      by_cases h : m = k
      · simp [put, h]
      · simp [put, List.lookup_cons, h, beq_eq_false_iff_ne.mpr h]
    · by_cases h : m = k
      · subst h
        simp [put, hk]
      · simp [put, List.lookup_cons, hk, ih, beq_eq_false_iff_ne.mpr h]

/-- A definition sets one name and no other. -/
theorem lookup?_define (f : Frame) (name m : String) (v : Value) :
    (f.define name v).lookup? m = if m = name then some v else f.lookup? m :=
  lookup_put name m v f.entries

private theorem map_fst_put (name : String) (v : Value) (bs : List (String × Value)) :
    (put name v bs).map (·.1) =
      if name ∈ bs.map (·.1) then bs.map (·.1) else bs.map (·.1) ++ [name] := by
  induction bs with
  | nil => simp [put]
  | cons b bs ih =>
    by_cases hk : b.1 = name
    · simp [put, hk]
    · by_cases h : name ∈ bs.map (·.1)
      · simp_all [put]
      · simp_all [put, eq_comm]

/-- A definition keeps the names in place; a new name comes last. -/
theorem names_define (f : Frame) (name : String) (v : Value) :
    (f.define name v).names = if name ∈ f.names then f.names else f.names ++ [name] :=
  map_fst_put name v f.entries

/-! ### Names given as values -/

/-- Binds a name given as a value, which has to be a symbol. -/
def bindName (f : Frame) (name v : Value) : Except Halt Frame :=
  match name with
  | .symbol _ n => .ok (f.define n v)
  | other => do throw (.fault (.nameNotSymbol (← other.describe?)))

/-- A row of items in which the symbols differ: a symbol given again keeps its first place and
takes its last value. -/
def merge (items : List (Value × Value)) : List (Value × Value) :=
  items.foldl add []
where
  /-- One item more. -/
  add : List (Value × Value) → Value × Value → List (Value × Value)
    | [], item => [item]
    | earlier :: items, item =>
      match earlier.1, item.1 with
      | .symbol _ a, .symbol _ b =>
        if a = b then (earlier.1, item.2) :: items else earlier :: add items item
      | _, _ => earlier :: add items item

/-- Binds one item after the other until a name is no symbol. -/
def bindEach (f : Frame) : List (Value × Value) → Frame × Except Halt Unit
  | [] => (f, .ok ())
  | item :: items =>
    match f.bindName item.1 item.2 with
    | .ok g => g.bindEach items
    | .error h => (f, .error h)

/-- Binds several names at once. -/
def update (f : Frame) (items : List (Value × Value)) : Frame × Except Halt Unit :=
  f.bindEach (merge items)

/-! ### Texts -/

/-- The bindings as the user sees them. -/
def describe (f : Frame) : String :=
  "\x7b" ++ ", ".intercalate (f.entries.map fun b => s!"{b.1}: " ++ b.2.inspect) ++ "\x7d"

/-- Whether all numbers bound can be written. -/
def isShowable (f : Frame) : Bool :=
  f.entries.all (·.2.isShowable)

end Frame

end DynamicLisp
