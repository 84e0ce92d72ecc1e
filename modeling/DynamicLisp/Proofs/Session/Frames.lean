import Mathlib
import DynamicLisp.Proofs.Session.Life

/-! Frames under evaluation. Whatever is evaluated or applied, and however that ends, the outer
frames stay as they were and the innermost one keeps its names in their places. -/
namespace DynamicLisp

/-- The discipline that permits everything. -/
def Discipline.free : Discipline where
  name _ := True
  data _ := True
  form _ := True
  defines _ _ := True
  bool _ := trivial
  int _ := trivial
  nil := trivial
  list := ⟨fun _ _ _ => trivial, fun _ => trivial⟩
  pair := ⟨fun _ => ⟨trivial, trivial⟩, fun _ => trivial⟩
  lambda := ⟨fun _ => ⟨fun _ _ => trivial, fun _ _ => trivial⟩, fun _ => trivial⟩
  form_of_data _ := trivial
  symbol _ := trivial
  items _ _ _ := trivial
  atom _ _ := trivial
  defines_variable _ := trivial
  defines_value _ _ := trivial
  defines_function _ := trivial
  defines_item _ _ _ := trivial
  defines_of_data _ _ := trivial

theorem Discipline.lasting_free : free.Lasting :=
  ⟨fun _ => trivial, fun _ => trivial, fun _ => trivial⟩

namespace Environment

theorem holds_true (e : Environment) : e.Holds fun _ => True :=
  fun _ _ _ _ => trivial

/-- Growth of an environment adds to the names of its outermost frame, if to any. -/
theorem Grows.prefix_root_names {p : String → Prop} {e e' : Environment} (h : e.Grows p e') :
    e.root.names <+: e'.root.names := by
  unfold root
  rw [h.outer]
  cases ho : e.outer with
  | nil => exact h.prefix_names
  | cons f fs =>
    have hroot : (f :: fs).getLastD e'.inner = (f :: fs).getLastD e.inner := by
      rw [List.getLastD_cons, List.getLastD_cons]
    exact hroot ▸ List.prefix_rfl

end Environment

namespace Eval
open Discipline Discipline.Scoping

/-- An evaluation, or an application of a lambda or a native, whether it gives a value or halts,
leaves the outer frames alone and the names of the innermost frame where they are; new names follow
them. So the outermost frame of a session has the names of the catalog first. -/
theorem frame_discipline :
    (∀ (depth : Nat) (form : Value) (m : Machine),
      ((evaluate depth form).run m).2.env.outer = m.env.outer ∧
        m.env.inner.names <+: ((evaluate depth form).run m).2.env.inner.names) ∧
    (∀ (depth : Nat) (fn : Value) (args : List Value) (m : Machine),
      ((apply depth fn args).run m).2.env.outer = m.env.outer ∧
        m.env.inner.names <+: ((apply depth fn args).run m).2.env.inner.names) ∧
    ∀ s : Session, s.Reachable → Catalog.frame.names <+: s.machine.env.root.names := by
  refine ⟨?_, ?_, ?_⟩
  · intro depth form m
    have hr := evaluates_evaluate free.holding depth form trivial
    obtain ⟨_, hg, _⟩ := hr.run m.env.holds_true
    exact ⟨hg.outer, hg.prefix_names⟩
  · intro depth fn args m
    have hr : free.holding.Respects (fun _ => True) free.data (apply depth fn args) :=
      respects_apply free.holding depth trivial (fun _ _ => trivial) fun _ _ _ _ => trivial
    obtain ⟨_, hg, _⟩ := hr.run m.env.holds_true
    exact ⟨hg.outer, hg.prefix_names⟩
  · intro s h
    exact (lasting_free.of_reachable h).2.prefix_root_names

/-! Two definitions are made, one gets another value, and one is made in a call; then a name is
looked up in vain. -/

abbrev afterFault : Session :=
  ((Session.start 9).eval "(define x 1) (define (f) (define y x)) (define x (f)) z").2

theorem frame_discipline_afterFault :
    afterFault.machine.env.root.names = Catalog.frame.names ++ ["x", "f"] ∧
      Catalog.frame.names <+: afterFault.machine.env.root.names :=
  ⟨by cbv, frame_discipline.2.2 afterFault (.eval (.start 9) _)⟩

end Eval

end DynamicLisp
