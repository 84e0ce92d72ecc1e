import DynamicLisp.Proofs.Eval.Nesting
import DynamicLisp.Proofs.Eval.Renaming
import DynamicLisp.Proofs.Eval.Rows

/-! Calls through `apply`. Main statement: handing a procedure and its operands to `apply`, the last
ones gathered in a list, ends as the direct call does. The list that is built on the way takes an
identity, so identities made later differ, but nothing shows them. -/
namespace DynamicLisp.Eval

/-- One outcome, up to identities: values that are equal, or one halt. -/
inductive Concur : Except Halt Value → Except Halt Value → Prop where
  | value {v w : Value} (h : v.equal w) : Concur (.ok v) (.ok w)
  | halt (e : Halt) : Concur (.error e) (.error e)

/-- Two runs that end alike up to identities: in the outcome, in all bindings and in the events. -/
structure SameEnd (s t : Except Halt Value × Machine) : Prop where
  outcome : Concur s.1 t.1
  env : s.2.env.Equal t.2.env
  events : s.2.events = t.2.events

theorem SameEnd.of_halt (e : Halt) (m : Machine) : SameEnd (.error e, m) (.error e, m) :=
  ⟨.halt e, m.env.equal_refl, rfl⟩

theorem SameEnd.of_rename (r : Identity → Identity) (a : Identity)
    (s : Except Halt Value × Machine) :
    SameEnd s (s.1.map (Value.rename r), s.2.rename r a) := by
  obtain ⟨s, m⟩ := s
  refine ⟨?_, m.env.equal_rename, rfl⟩
  cases s with
  | error e => exact .halt e
  | ok v => exact .value Value.equal_rename

variable {ev : Value → Eval Value} {depth : Nat} {p fn : Value} {es fs vs : List Value}
  {m m₁ m₂ : Machine} {i j k : Identity}

/-- The call of `apply` with an operator, operands, and a list of the operands that are left. -/
def throughApply (i j : Identity) (p : Value) (es fs : List Value) : Value :=
  .list i (.native .apply :: p :: (es ++ [.list j (.native (.primitive .list) :: fs)]))

/-! ### The two courses -/

private theorem run_call (hs : Special.ofHead? p = none) (hp : (ev p).run m = (.ok fn, m₁))
    (hproc : fn.isProcedure) (hb : fn ≠ .native .begin) :
    (step ev (.list i (p :: (es ++ fs)))).run m =
      (each ev es >>= fun vs => each ev fs >>= fun ws => applyWith ev fn (vs ++ ws)).run m₁ := by
  have ht : fn.takesForms = false := by
    cases hf : fn.takesForms with
    | true => exact (hb (Discipline.Scoping.eq_begin_of_takesForms hf)).elim
    | false => rfl
  simp only [step, hs]
  rw [run_callForm hp hproc ht]
  simp only [each_append, bind_assoc, pure_bind]

private theorem spread_append (vs ws : List Value) (i : Identity) :
    ∃ first others, vs ++ [.list i ws] = first :: others ∧
      Callee.spread first others = .ok (vs ++ ws) := by
  induction vs with
  | nil => exact ⟨_, _, rfl, rfl⟩
  | cons v vs ih =>
    obtain ⟨first, others, he, hs⟩ := ih
    refine ⟨v, first :: others, congrArg (v :: ·) he, ?_⟩
    rw [Callee.spread, hs]
    rfl

private theorem applyWith_apply (hproc : fn.isProcedure) (vs ws : List Value) :
    applyWith ev (.native .apply) (fn :: (vs ++ [.list i ws])) = applyWith ev fn (vs ++ ws) := by
  obtain ⟨first, others, he, hs⟩ := spread_append vs ws i
  rw [applyWith, applyWith, he, Callee.resolve_apply hproc hs]

/-- A native as operator is the procedure itself. -/
private theorem evaluate_native_call (depth : Nat) {f : Native} (hf : f.takesForms = false)
    (operands : List Value) :
    evaluate (depth + 2) (.list i (.native f :: operands)) =
      each (evaluate (depth + 1)) operands >>= applyWith (evaluate (depth + 1)) (.native f) := by
  have he : evaluate (depth + 1) (.native f) = pure (.native f) := rfl
  have hp : (Value.native f).isProcedure = true := rfl
  have ht : (Value.native f).takesForms = false := hf
  show callForm (evaluate (depth + 1)) (.native f) operands = _
  rw [callForm, he, pure_bind, if_pos hp, arguments, ht, if_neg Bool.false_ne_true]

/-- The form that gathers operands evaluates them one level further in. -/
private theorem evaluate_gathering (depth : Nat) (fs : List Value) :
    evaluate (depth + 2) (.list j (.native (.primitive .list) :: fs)) =
      each (evaluate (depth + 1)) fs >>= fun ws =>
        newIdentity >>= fun fresh => pure (.list fresh ws) := by
  rw [evaluate_native_call depth (f := .primitive .list) rfl]
  congr 1
  funext ws
  exact applyWith_primitive .list ws

private theorem run_throughApply (hp : (evaluate (depth + 1) p).run m = (.ok fn, m₁)) :
    (evaluate (depth + 2) (throughApply i j p es fs)).run m =
      (each (evaluate (depth + 1)) es >>= fun vs =>
        evaluate (depth + 1) (.list j (.native (.primitive .list) :: fs)) >>= fun w =>
          applyWith (evaluate (depth + 1)) (.native .apply) (fn :: (vs ++ [w]))).run m₁ := by
  have hc : evaluate (depth + 2) (throughApply i j p es fs) =
      each (evaluate (depth + 1)) (p :: (es ++ [.list j (.native (.primitive .list) :: fs)])) >>=
        applyWith (evaluate (depth + 1)) (.native .apply) :=
    evaluate_native_call depth (f := .apply) rfl _
  rw [hc, each, bind_assoc, run_bind, hp]
  simp only [each_append, each, bind_assoc, pure_bind]

/-! ### Comparison -/

/-- An identity that is passed over changes no call. -/
private theorem sameEnd_of_skip (depth : Nat) {args : List Value} (hfn : fn.IsBelow m.fresh)
    (hargs : ∀ a ∈ args, a.IsBelow m.fresh) (hm : m.env.Holds (Value.IsBelow m.fresh)) :
    SameEnd ((applyWith (evaluate depth) fn args).run m)
      ((applyWith (evaluate depth) fn args).run { m with fresh := m.fresh + 1 }) := by
  have h := renames_applyWith (shift_injective (k := m.fresh))
    (renamesForms_evaluate (shift_injective (k := m.fresh)) depth) fn args
  rw [hfn.rename_eq fun _ => shift_of_lt, map_rename_shift_eq hargs le_rfl] at h
  have hr := h.run m (m.fresh + 1) fun i hi _ => by
    rw [shift_of_le hi, Nat.add_comm m.fresh 1, Nat.add_assoc, Nat.add_comm]
  have hself : m.rename (shift m.fresh) (m.fresh + 1) = { m with fresh := m.fresh + 1 } := by
    rw [Machine.rename, rename_shift_eq hm le_rfl]
  rw [hself] at hr
  rw [hr]
  exact .of_rename _ _ _

private theorem sameEnd_of_rows (hs : Special.ofHead? p = none)
    (hp : (evaluate (depth + 1) p).run m = (.ok fn, m₁)) (hproc : fn.isProcedure)
    (hb : fn ≠ .native .begin) (hforms : ∀ f ∈ p :: (es ++ fs), f.IsBelow m.fresh)
    (hm : m.env.Holds (Value.IsBelow m.fresh))
    (hrow : ∀ vs m₂, (each (evaluate (depth + 1)) es).run m₁ = (.ok vs, m₂) →
      ∃ d, depth = d + 1 ∧ ¬ Halts (each (evaluate depth) fs) m₂ .nesting) :
    SameEnd ((evaluate (depth + 2) (.list i (p :: (es ++ fs)))).run m)
      ((evaluate (depth + 2) (throughApply i j p es fs)).run m) := by
  have hcall : (evaluate (depth + 2) (.list i (p :: (es ++ fs)))).run m = _ :=
    run_call hs hp hproc hb
  rw [hcall, run_throughApply hp, run_bind, run_bind]
  generalize he : (each (evaluate (depth + 1)) es).run m₁ = row at hrow
  obtain ⟨row, m₂⟩ := row
  cases row with
  | error e => exact .of_halt e m₂
  | ok vs =>
    -- the operands in the list are evaluated one level further in, where they stay in the bound too
    obtain ⟨d, rfl, hn⟩ := hrow vs m₂ rfl
    simp only [evaluate_gathering, bind_assoc, pure_bind, applyWith_apply hproc]
    rw [run_bind, run_bind, ← run_each_of_le (Nat.le_succ _) hn]
    generalize hf : (each (evaluate (d + 2)) fs).run m₂ = row
    obtain ⟨row, m₃⟩ := row
    cases row with
    | error e => exact .of_halt e m₃
    | ok ws =>
      have hall : (each (evaluate (d + 2)) (p :: (es ++ fs))).run m =
          (.ok (fn :: (vs ++ ws)), m₃) := by
        simp only [each, each_append, run_bind, hp, he, hf, run_pure]
      obtain ⟨hm₃, hvs⟩ := isBelow_of_each (d + 2) hforms hm
      rw [hall] at hm₃ hvs
      obtain ⟨hfn, hargs⟩ := List.forall_mem_cons.mp (hvs _ rfl)
      exact sameEnd_of_skip (d + 2) hfn hargs hm₃

private theorem run_operator {depth₀ : Nat} (hp : (evaluate depth₀ p).run m = (.ok fn, m₁))
    (hn : ¬ Halts (evaluate depth p) m .nesting) : (evaluate depth p).run m = (.ok fn, m₁) := by
  refine (run_evaluate_eq hn fun h => ?_).trans hp
  rw [Halts, hp] at h
  cases h

/-- What a direct call evaluates within its bound stays within it. -/
private theorem rows_of_call (hs : Special.ofHead? p = none)
    (hp : (evaluate depth p).run m = (.ok fn, m₁)) (hproc : fn.isProcedure)
    (hb : fn ≠ .native .begin)
    (h : ¬ Halts (evaluate (depth + 1) (.list i (p :: (es ++ fs)))) m .nesting)
    (he : (each (evaluate (depth + 1)) es).run m₁ = (.ok vs, m₂)) :
    ¬ Halts (each (evaluate depth) fs) m₂ .nesting := by
  have hcall : (evaluate (depth + 1) (.list i (p :: (es ++ fs)))).run m = _ :=
    run_call hs hp hproc hb
  rw [Halts, hcall] at h
  have hes : ¬ Halts (each (evaluate depth) es) m₁ .nesting :=
    fun hn => h (halts_bind.mpr (.inl hn))
  rw [run_each_of_le (Nat.le_succ depth) hes] at he
  exact fun hn => h (halts_bind.mpr (.inr ⟨vs, m₂, he, halts_bind.mpr (.inl hn)⟩))

private theorem rows_of_throughApply (hp : (evaluate (depth + 1) p).run m = (.ok fn, m₁))
    (h : ¬ Halts (evaluate (depth + 2) (throughApply i j p es fs)) m .nesting)
    (he : (each (evaluate (depth + 1)) es).run m₁ = (.ok vs, m₂)) :
    ∃ d, depth = d + 1 ∧ ¬ Halts (each (evaluate depth) fs) m₂ .nesting := by
  rw [Halts, run_throughApply hp] at h
  have hlist : ¬ Halts (evaluate (depth + 1) (.list j (.native (.primitive .list) :: fs))) m₂
      .nesting :=
    fun hn => h (halts_bind.mpr (.inr ⟨vs, m₂, he, halts_bind.mpr (.inl hn)⟩))
  cases depth with
  | zero => exact (hlist rfl).elim
  | succ d =>
    rw [evaluate_gathering] at hlist
    exact ⟨d, rfl, fun hn => hlist (halts_bind.mpr (.inl hn))⟩

/-- The direct call first: within a bound greater by one, the other call ends as it does. -/
theorem sameEnd_of_call {depth₀ : Nat} (hs : Special.ofHead? p = none)
    (hp : (evaluate depth₀ p).run m = (.ok fn, m₁)) (hproc : fn.isProcedure)
    (hb : fn ≠ .native .begin) (hforms : ∀ f ∈ p :: (es ++ fs), f.IsBelow m.fresh)
    (hm : m.env.Holds (Value.IsBelow m.fresh))
    (h : ¬ Halts (evaluate depth (.list i (p :: (es ++ fs)))) m .nesting) :
    SameEnd ((evaluate depth (.list i (p :: (es ++ fs)))).run m)
      ((evaluate (depth + 1) (throughApply j k p es fs)).run m) := by
  rcases depth with _ | _ | d
  · exact (h rfl).elim
  · exact (h (halts_step_of_enters (.operator hs) rfl)).elim
  · have hn : ¬ Halts (evaluate (d + 1) p) m .nesting :=
      fun hn => h (halts_step_of_enters (.operator hs) hn)
    have hp₁ := run_operator hp hn
    have hp₂ : (evaluate (d + 2) p).run m = (.ok fn, m₁) :=
      (run_evaluate_of_le (Nat.le_succ _) hn).trans hp₁
    rw [← run_evaluate_of_le (Nat.le_succ (d + 2)) h]
    exact sameEnd_of_rows hs hp₂ hproc hb hforms hm fun vs m₂ he =>
      ⟨d, rfl, rows_of_call hs hp₁ hproc hb h he⟩

/-- The call through `apply` first: the direct one ends as it does within the same bound. -/
theorem sameEnd_of_throughApply {depth₀ : Nat} (hs : Special.ofHead? p = none)
    (hp : (evaluate depth₀ p).run m = (.ok fn, m₁)) (hproc : fn.isProcedure)
    (hb : fn ≠ .native .begin) (hforms : ∀ f ∈ p :: (es ++ fs), f.IsBelow m.fresh)
    (hm : m.env.Holds (Value.IsBelow m.fresh))
    (h : ¬ Halts (evaluate depth (throughApply j k p es fs)) m .nesting) :
    SameEnd ((evaluate depth (.list i (p :: (es ++ fs)))).run m)
      ((evaluate depth (throughApply j k p es fs)).run m) := by
  rcases depth with _ | _ | d
  · exact (h rfl).elim
  · exact (h rfl).elim
  · have hn : ¬ Halts (evaluate (d + 1) p) m .nesting := fun hn => by
      refine h ?_
      rw [throughApply, evaluate_native_call d (f := .apply) rfl]
      exact halts_bind.mpr (.inl (halts_each.mpr ⟨p, m, .here, hn⟩))
    have hp₁ := run_operator hp hn
    exact sameEnd_of_rows hs hp₁ hproc hb hforms hm fun vs m₂ he =>
      rows_of_throughApply hp₁ h he

/-- Calling through `apply` agrees with calling directly. Let the operator form yield a procedure
other than `begin`, and let forms and bindings have none of the identities to come. Where the direct
call stays within a bound on nesting, the other one ends as it does within a bound greater by one;
and where the call through `apply` stays within a bound, the direct one ends as it does within the
same bound. -/
theorem call_through_apply {depth₀ : Nat} (p : Value) (es fs : List Value) (i j k : Identity)
    (hs : Special.ofHead? p = none) (hp : (evaluate depth₀ p).run m = (.ok fn, m₁))
    (hproc : fn.isProcedure) (hb : fn ≠ .native .begin)
    (hforms : ∀ f ∈ p :: (es ++ fs), f.IsBelow m.fresh) (hm : m.env.Holds (Value.IsBelow m.fresh))
    (depth : Nat) :
    (¬ Halts (evaluate depth (.list i (p :: (es ++ fs)))) m .nesting →
        SameEnd ((evaluate depth (.list i (p :: (es ++ fs)))).run m)
          ((evaluate (depth + 1) (throughApply j k p es fs)).run m)) ∧
      (¬ Halts (evaluate depth (throughApply j k p es fs)) m .nesting →
        SameEnd ((evaluate depth (.list i (p :: (es ++ fs)))).run m)
          ((evaluate depth (throughApply j k p es fs)).run m)) := by
  exact ⟨sameEnd_of_call hs hp hproc hb hforms hm, sameEnd_of_throughApply hs hp hproc hb hforms hm⟩

/-! A procedure that compares its arguments by identity and reads a name that the operand before the
split defines anew. -/

abbrev compareAll : Value :=
  .lambda 1 "f" ["x", "y"]
    [.list 0 [.symbol 0 "list", .list 0 [.symbol 0 "eq?", .symbol 0 "x", .symbol 0 "y"],
      .symbol 0 "n"]]

abbrev callers : Machine :=
  ⟨⟨⟨[("n", .int 1)]⟩, [⟨[("f", compareAll), ("eq?", .native (.primitive .eq)),
    ("list", .native (.primitive .list)), ("begin", .native .begin)]⟩]⟩, 2, []⟩

abbrev redefining : Value :=
  .list 0 [.symbol 0 "begin", .list 0 [.symbol 0 "define", .symbol 0 "n", .int 2],
    .list 0 [.symbol 0 "list"]]

abbrev gathering : Value :=
  .list 0 [.symbol 0 "list"]

theorem call_through_apply_redefining :
    ((evaluate 4 (.list 0 [.symbol 0 "f", redefining, gathering])).run callers).1 =
        .ok (.list 5 [.bool false, .int 2]) ∧
      SameEnd ((evaluate 4 (.list 0 [.symbol 0 "f", redefining, gathering])).run callers)
        ((evaluate 5 (throughApply 0 0 (.symbol 0 "f") [redefining] [gathering])).run callers) := by
  have hv : ((evaluate 4 (.list 0 [.symbol 0 "f", redefining, gathering])).run callers).1 =
      .ok (.list 5 [.bool false, .int 2]) := by cbv
  have hp : (evaluate 1 (.symbol 0 "f")).run callers = (.ok compareAll, callers) := by cbv
  have hforms : [.symbol 0 "f", redefining, gathering].map (Value.rename (shift 2)) =
      [.symbol 0 "f", redefining, gathering] := rfl
  have henv : callers.env.rename (shift 2) = callers.env := rfl
  have hb : compareAll ≠ .native .begin := by simp
  refine ⟨hv, (call_through_apply (.symbol 0 "f") [redefining] [gathering] 0 0 0 rfl hp rfl
    hb ?_ ?_ 4).1 ?_⟩
  · exact fun f hf => Value.isBelow_of_rename_eq (Value.map_eq_self_iff.mp hforms f hf)
      fun i => lt_of_shift_eq
  · exact fun f hf b hb => Value.isBelow_of_rename_eq
      (rename_env_eq_self_iff.mp henv f hf b hb) fun i => lt_of_shift_eq
  · rw [Halts, List.cons_append, List.nil_append, hv]
    simp

end DynamicLisp.Eval
