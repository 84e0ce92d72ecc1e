import Mathlib
import DynamicLisp.Proofs.Eval.Respect
import DynamicLisp.Proofs.Value.Parts

/-! Coincidence under dynamic scope. What a form comes to depends on its environment only through
the meaning of the names that the form mentions, that the values of these names mention, and so on;
how the bindings are spread over frames does not matter. -/
namespace DynamicLisp

namespace Discipline

/-- The discipline of programs that mention no names but those of `N`. -/
def mentioning (N : Set String) : Discipline where
  name x := x ∈ N
  data v := ∀ x ∈ v.mentions, x ∈ N
  form v := ∀ x ∈ v.mentions, x ∈ N
  defines _ _ := True
  bool _ := fun _ h => nomatch h
  int _ := fun _ h => nomatch h
  nil := fun _ h => nomatch h
  list := by
    intro i vs
    simp only [Value.mentions_list, List.mem_flatMap]
    exact ⟨fun h v hv x hx => h x ⟨v, hv, hx⟩, fun h x ⟨v, hv, hx⟩ => h v hv x hx⟩
  pair := by
    intro i a d
    simp only [Value.mentions_pair, List.mem_append]
    exact ⟨fun h => ⟨fun x hx => h x (.inl hx), fun x hx => h x (.inr hx)⟩,
      fun h x hx => hx.elim (h.1 x) (h.2 x)⟩
  lambda := by
    intro i f params body
    simp only [Value.mentions_lambda, List.mem_append, List.mem_flatMap]
    exact ⟨fun h => ⟨fun x hx => h x (.inl hx), fun g hg x hx => h x (.inr ⟨g, hg, hx⟩)⟩,
      fun h x hx => hx.elim (h.1 x) fun ⟨g, hg, hx⟩ => h.2 g hg x hx⟩
  form_of_data h := h
  symbol h := h _ (List.mem_singleton.mpr rfl)
  items := by
    intro i fs h f hf x hx
    rw [Value.mentions_list] at h
    exact h x (List.mem_flatMap.mpr ⟨f, hf, hx⟩)
  atom h _ := h
  defines_variable _ := trivial
  defines_value _ _ := trivial
  defines_function _ := trivial
  defines_item _ _ _ := trivial
  defines_of_data _ _ := trivial

/-- Environments that give the names of `N` the same meanings, which mention names of `N` only. -/
def agreeing (N : Set String) : (mentioning N).Scoping where
  alike e e' := ∀ x ∈ N, e.lookup? x = e'.lookup? x ∧
    ∀ v, e.lookup? x = some v → ∀ y ∈ v.mentions, y ∈ N
  lookup h hx := h _ hx
  define := by
    intro e e' x v h hx hv y hy
    rw [Environment.lookup?_define, Environment.lookup?_define]
    split
    · refine ⟨rfl, fun w hw => ?_⟩
      cases hw
      exact hv
    · exact h y hy
  push := by
    intro e e' params args h hparams hargs y hy
    rw [Environment.lookup?_push, Environment.lookup?_push, (h y hy).1]
    refine ⟨rfl, fun w hw => ?_⟩
    cases hf : (Frame.ofParameters params args).lookup? y with
    | none =>
      rw [hf, Option.none_or, ← (h y hy).1] at hw
      exact (h y hy).2 w hw
    | some u =>
      rw [hf, Option.some_or] at hw
      cases hw
      exact hargs w (Frame.mem_args_of_mem_ofParameters (Frame.mem_entries_of_lookup? hf))

end Discipline

namespace Eval

/-- Coincidence: let two environments give all names of `N` the same meanings, or none, and let the
form and these meanings mention names of `N` only. Then evaluation ends in both with the same value
or halt, objects made on the way being called alike, and again they give the names of `N` the same
meanings. -/
theorem evaluate_coincidence (N : Set String) (depth : Nat) (form : Value) (e e' : Environment)
    (fresh : Identity) (before before' : List Event)
    (hform : ∀ x ∈ form.mentions, x ∈ N)
    (hbound : ∀ x ∈ N, ∀ v, e.lookup? x = some v → ∀ y ∈ v.mentions, y ∈ N)
    (hsame : ∀ x ∈ N, e.lookup? x = e'.lookup? x) :
    ((evaluate depth form).run ⟨e, fresh, before⟩).1 =
        ((evaluate depth form).run ⟨e', fresh, before'⟩).1 ∧
      ∀ x ∈ N, ((evaluate depth form).run ⟨e, fresh, before⟩).2.env.lookup? x =
        ((evaluate depth form).run ⟨e', fresh, before'⟩).2.env.lookup? x := by
  have halike : (Discipline.agreeing N).Alike ⟨e, fresh, before⟩ ⟨e', fresh, before'⟩ :=
    ⟨rfl, fun x hx => ⟨hsame x hx, hbound x hx⟩⟩
  have hev := Discipline.Scoping.evaluates_evaluate (Discipline.agreeing N) depth
  have hr := hev form hform _ _ halike
  exact ⟨hr.outcome, fun x hx => (hr.alike.env x hx).1⟩

/-! A call of `f` adds `y`, which only the caller binds: in one frame with everything else, or in
the innermost of three frames, where it hides another `y`. -/

abbrev addY : Value :=
  .lambda 1 "f" ["x"] [.list 0 [.symbol 0 "+", .symbol 0 "x", .symbol 0 "y"]]

abbrev flat : Environment :=
  ⟨⟨[("+", .native (.primitive .add)), ("f", addY), ("y", .int 40)]⟩, []⟩

abbrev nested : Environment :=
  ⟨⟨[("z", .nil), ("y", .int 40)]⟩,
    [⟨[("f", addY)]⟩, ⟨[("y", .int 7), ("+", .native (.primitive .add))]⟩]⟩

theorem coincidence_flat_nested :
    ((evaluate 3 (.list 0 [.symbol 0 "f", .int 2])).run ⟨flat, 2, []⟩).1 = .ok (.int 42) ∧
      ((evaluate 3 (.list 0 [.symbol 0 "f", .int 2])).run ⟨nested, 2, []⟩).1 = .ok (.int 42) := by
  have h := evaluate_coincidence (fun x => x ∈ ["f", "+", "x", "y"]) 3
    (.list 0 [.symbol 0 "f", .int 2]) flat nested 2 [] [] ?_ ?_ ?_
  · have hflat : ((evaluate 3 (.list 0 [.symbol 0 "f", .int 2])).run ⟨flat, 2, []⟩).1 =
      .ok (.int 42) := by cbv
    exact ⟨hflat, h.1.symm.trans hflat⟩
  · exact (by decide : ∀ x ∈ ["f"], x ∈ ["f", "+", "x", "y"])
  · intro x hx v hv
    change x ∈ ["f", "+", "x", "y"] at hx
    simp only [List.mem_cons, List.not_mem_nil, or_false] at hx
    rcases hx with rfl | rfl | rfl | rfl <;> cases hv
    · exact (by decide : ∀ x ∈ ["x", "+", "x", "y"], x ∈ ["f", "+", "x", "y"])
    all_goals exact fun y hy => (List.not_mem_nil hy).elim
  · intro x hx
    change x ∈ ["f", "+", "x", "y"] at hx
    simp only [List.mem_cons, List.not_mem_nil, or_false] at hx
    rcases hx with rfl | rfl | rfl | rfl <;> rfl

end Eval

end DynamicLisp
