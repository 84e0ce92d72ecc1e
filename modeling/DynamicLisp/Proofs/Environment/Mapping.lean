import DynamicLisp.Environment.Basic

/-! Scopes with other values. A map of values leaves names in their places, so it commutes with
look-ups and definitions. -/
namespace DynamicLisp

namespace Frame

/-- The frame with `g` applied to all values. -/
def map (g : Value → Value) (f : Frame) : Frame :=
  ⟨f.entries.map fun b => (b.1, g b.2)⟩

variable {g : Value → Value}

private theorem lookup_map (name : String) (bs : List (String × Value)) :
    (bs.map fun b => (b.1, g b.2)).lookup name = (bs.lookup name).map g := by
  induction bs with
  | nil => rfl
  | cons b bs ih =>
    rw [List.map_cons, List.lookup_cons, List.lookup_cons]
    split
    · rfl
    · exact ih

theorem lookup?_map (f : Frame) (name : String) :
    (f.map g).lookup? name = (f.lookup? name).map g :=
  lookup_map name f.entries

private theorem put_map (name : String) (v : Value) (bs : List (String × Value)) :
    put name (g v) (bs.map fun b => (b.1, g b.2)) = (put name v bs).map fun b => (b.1, g b.2) := by
  induction bs with
  | nil => rfl
  | cons b bs ih =>
    rw [List.map_cons, put, put]
    split
    · rfl
    · rw [ih, List.map_cons]

theorem define_map (f : Frame) (name : String) (v : Value) :
    (f.map g).define name (g v) = (f.define name v).map g :=
  congrArg Frame.mk (put_map name v f.entries)

private theorem foldl_define_map (f : Frame) (bs : List (String × Value)) :
    (bs.map fun b => (b.1, g b.2)).foldl (fun f b => f.define b.1 b.2) (f.map g) =
      (bs.foldl (fun f b => f.define b.1 b.2) f).map g := by
  induction bs generalizing f with
  | nil => rfl
  | cons b bs ih => rw [List.map_cons, List.foldl_cons, List.foldl_cons, define_map, ih]

theorem ofParameters_map (params : List String) (args : List Value) :
    ofParameters params (args.map g) = (ofParameters params args).map g := by
  have hz : params.zip (args.map g) = (params.zip args).map fun b => (b.1, g b.2) := by
    rw [List.zip_map_right]
    rfl
  rw [ofParameters, hz]
  exact foldl_define_map empty _

end Frame

namespace Environment

/-- The environment with `g` applied to all values. -/
def map (g : Value → Value) (e : Environment) : Environment :=
  ⟨e.inner.map g, e.outer.map (Frame.map g)⟩

variable {g : Value → Value} {e : Environment}

theorem frames_map : (e.map g).frames = e.frames.map (Frame.map g) := rfl

theorem lookup?_map (name : String) : (e.map g).lookup? name = (e.lookup? name).map g := by
  rw [lookup?, lookup?, frames_map]
  induction e.frames with
  | nil => rfl
  | cons f fs ih =>
    rw [List.map_cons, List.findSome?_cons, List.findSome?_cons, Frame.lookup?_map]
    cases f.lookup? name with
    | none => exact ih
    | some v => rfl

theorem define_map (name : String) (v : Value) :
    (e.map g).define name (g v) = (e.define name v).map g := by
  rw [define, define, map, map, Frame.define_map]

theorem push_map (f : Frame) : (e.map g).push (f.map g) = (e.push f).map g := rfl

theorem pop_map : (e.map g).pop = e.pop.map g := by
  obtain ⟨inner, outer⟩ := e
  cases outer <;> rfl

end Environment

end DynamicLisp
