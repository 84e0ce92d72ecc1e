import DynamicLisp.Eval.Machine
import DynamicLisp.Value.Equality

/-!
The catalog: what a fresh root frame binds, and which bindings of a root frame are not from it.
-/
namespace DynamicLisp.Catalog

/-- The natives under their names, then the two truth values. -/
def frame : Frame :=
  ⟨Native.all.map (fun f => (f.name, .native f)) ++ [("true", .bool true), ("false", .bool false)]⟩

/-- The environment of the catalog alone. -/
def environment : Environment := ⟨frame, []⟩

/-- The machine at the start of a program. -/
def machine : Machine := ⟨environment, Identity.reader + 1, []⟩

/-- The bindings whose value is not the one that the catalog has under that name. -/
def additions (f : Frame) : List (String × Value) :=
  f.entries.filter fun b =>
    match frame.lookup? b.1 with
    | some v => !b.2.same v
    | none => true

end DynamicLisp.Catalog
