import DynamicLisp.Proofs.Environment.Mapping
import DynamicLisp.Proofs.Value.Renaming

/-! Renaming in scopes. Names keep their places and are bound to the renamed values, so look-ups and
definitions commute with a renaming of identities. -/
namespace DynamicLisp

namespace Frame
variable (r : Identity → Identity)

/-- The frame with all values renamed. -/
def rename (f : Frame) : Frame :=
  ⟨f.entries.map fun b => (b.1, b.2.rename r)⟩

variable {r}

theorem lookup?_rename (f : Frame) (name : String) :
    (f.rename r).lookup? name = (f.lookup? name).map (Value.rename r) :=
  f.lookup?_map name

theorem define_rename (f : Frame) (name : String) (v : Value) :
    (f.rename r).define name (v.rename r) = (f.define name v).rename r :=
  f.define_map name v

theorem ofParameters_rename (params : List String) (args : List Value) :
    ofParameters params (args.map (Value.rename r)) = (ofParameters params args).rename r :=
  ofParameters_map params args

/-- Frames that bind the same names, in one order, to values that are equal. -/
def Equal (f g : Frame) : Prop :=
  List.Forall₂ (fun b c => b.1 = c.1 ∧ b.2.equal c.2) f.entries g.entries

theorem equal_rename (f : Frame) : f.Equal (f.rename r) :=
  List.forall₂_map_right_iff.mpr (List.forall₂_same.mpr fun _ _ => ⟨rfl, Value.equal_rename⟩)

end Frame

namespace Environment
variable (r : Identity → Identity)

/-- The environment with all values renamed. -/
def rename (e : Environment) : Environment :=
  ⟨e.inner.rename r, e.outer.map (Frame.rename r)⟩

variable {r} {e : Environment}

theorem frames_rename : (e.rename r).frames = e.frames.map (Frame.rename r) := rfl

theorem lookup?_rename (name : String) :
    (e.rename r).lookup? name = (e.lookup? name).map (Value.rename r) :=
  lookup?_map name

theorem define_rename (name : String) (v : Value) :
    (e.rename r).define name (v.rename r) = (e.define name v).rename r :=
  define_map name v

theorem pop_rename : (e.rename r).pop = e.pop.rename r :=
  pop_map

/-- Environments of equally many frames that are equal one by one. -/
def Equal (e e' : Environment) : Prop :=
  List.Forall₂ Frame.Equal e.frames e'.frames

theorem equal_refl (e : Environment) : e.Equal e :=
  List.forall₂_same.mpr fun _ _ => List.forall₂_same.mpr fun _ _ => ⟨rfl, Value.equal_refl _⟩

theorem equal_rename (e : Environment) : e.Equal (e.rename r) := by
  rw [Equal, frames_rename]
  exact List.forall₂_map_right_iff.mpr (List.forall₂_same.mpr fun f _ => f.equal_rename)

end Environment

end DynamicLisp
