import Mathlib
import DynamicLisp.Proofs.Eval.Nesting
import DynamicLisp.Proofs.Session.Sameness

/-! A recursive program. Main statement: the procedure that counts the elements of a list, by
calling itself with the rest, gives the length. Each call runs in the scope of its caller, so its
parameter hides that of the caller, and the names that it uses keep their meaning only because no
call binds any of them. -/
namespace DynamicLisp.Length
open Eval

/-- The text that defines the procedure. -/
abbrev source : String :=
  "(define (len xs) (if (equal? xs (list)) 0 (+ 1 (len (cdr xs)))))"

/-! ### Forms -/

/-- A name as it is read. -/
abbrev ref (name : String) : Value :=
  .symbol .reader name

/-- A form with a name at its head, as it is read. -/
abbrev form (name : String) (operands : List Value) : Value :=
  .list .reader (ref name :: operands)

/-- Whether the parameter is empty. -/
abbrev condition : Value :=
  form "equal?" [ref "xs", form "list" []]

/-- The count of what follows the first element. -/
abbrev recursion : Value :=
  form "len" [form "cdr" [ref "xs"]]

abbrev body : Value :=
  form "if" [condition, .int 0, form "+" [.int 1, recursion]]

/-- The lambda that the definition makes, with the identity that it is given. -/
def procedure (i : Identity) : Value :=
  .lambda i "len" ["xs"] [body]

theorem ofText_source :
    Script.ofText source = ⟨[form "define" [.list .reader [ref "len", ref "xs"], body]], none⟩ := by
  cbv

theorem eval_source {s : Session} (hd : 0 < s.depth) :
    s.eval source = (.ok .nil, { s with machine :=
      ⟨s.machine.env.define "len" (procedure s.machine.fresh), s.machine.fresh + 1,
        .definedFunction "len" 1 :: s.machine.events⟩ }) := by
  obtain ⟨m, depth⟩ := s
  obtain ⟨depth, rfl⟩ := Nat.exists_eq_add_of_lt hd
  rw [Session.eval, ofText_source]
  rfl

/-! ### Scopes -/

/-- The names in the procedure mean the procedure with identity `i` and the primitives. -/
structure Provides (i : Identity) (e : Environment) : Prop where
  len : e.lookup? "len" = some (procedure i)
  equal : e.lookup? "equal?" = some (.native (.primitive .equal))
  list : e.lookup? "list" = some (.native (.primitive .list))
  cdr : e.lookup? "cdr" = some (.native (.primitive .cdr))
  add : e.lookup? "+" = some (.native (.primitive .add))

/-- The frame of a call. -/
abbrev frame (v : Value) : Frame :=
  .ofParameters ["xs"] [v]

theorem lookup?_push_of_ne {e : Environment} {v : Value} {x : String} (h : x ≠ "xs") :
    (e.push (frame v)).lookup? x = e.lookup? x := by
  have hx : (frame v).lookup? x = none := by
    show (Frame.empty.define "xs" v).lookup? x = none
    rw [Frame.lookup?_define, if_neg h]
    rfl
  rw [Environment.lookup?_push, hx, Option.none_or]

/-- A call binds none of the names. -/
theorem Provides.push {i : Identity} {e : Environment} (h : Provides i e) (v : Value) :
    Provides i (e.push (frame v)) where
  len := (lookup?_push_of_ne (by decide)).trans h.len
  equal := (lookup?_push_of_ne (by decide)).trans h.equal
  list := (lookup?_push_of_ne (by decide)).trans h.list
  cdr := (lookup?_push_of_ne (by decide)).trans h.cdr
  add := (lookup?_push_of_ne (by decide)).trans h.add

/-! ### Evaluation -/

variable {depth : Nat} {m n : Machine} {i j : Identity} {name : String} {v x : Value}
  {operands args items : List Value}

theorem run_ref (h : m.env.lookup? name = some v) :
    (evaluate (depth + 1) (ref name)).run m = (.ok v, m) := by
  rw [evaluate, step, run_lookup, h]
  rfl

theorem run_primitive {p : Primitive} (hs : Special.ofHead? (ref name) = none)
    (hp : m.env.lookup? name = some (.native (.primitive p)))
    (ha : (each (evaluate (depth + 1)) operands).run m = (.ok args, n)) :
    (evaluate (depth + 2) (form name operands)).run m =
      (p.compute n.fresh args, { n with fresh := n.fresh + 1 }) :=
  Session.run_of_uses (Session.uses_of_run hs (run_ref hp) ha)

theorem run_condition (h : Provides i m.env) (hx : m.env.lookup? "xs" = some (.list j items)) :
    (evaluate (depth + 3) condition).run m =
      (.ok (.bool items.isEmpty), { m with fresh := m.fresh + 2 }) := by
  have hlist : (evaluate (depth + 2) (form "list" [])).run m =
      (.ok (.list m.fresh []), { m with fresh := m.fresh + 1 }) :=
    run_primitive rfl h.list rfl
  have ha : (each (evaluate (depth + 2)) [ref "xs", form "list" []]).run m =
      (.ok [.list j items, .list m.fresh []], { m with fresh := m.fresh + 1 }) := by
    simp only [each, run_bind, run_ref hx, hlist, run_pure]
  rw [run_primitive rfl h.equal ha]
  cases items <;> rfl

theorem run_cdr (h : Provides i m.env) (hx : m.env.lookup? "xs" = some (.list j (x :: items))) :
    (evaluate (depth + 2) (form "cdr" [ref "xs"])).run m =
      (.ok (.list m.fresh items), { m with fresh := m.fresh + 1 }) := by
  have ha : (each (evaluate (depth + 1)) [ref "xs"]).run m = (.ok [.list j (x :: items)], m) := by
    simp only [each, run_bind, run_ref hx, run_pure]
  exact run_primitive rfl h.cdr ha

/-- A call evaluates the body in the scope of its caller, with the parameter bound. -/
theorem apply_procedure (depth : Nat) (i : Identity) (v : Value) :
    apply depth (procedure i) [v] = within (frame v) (evaluate depth body) := by
  have hbody : inOrder (evaluate depth) .nil [body] = evaluate depth body := by
    simp only [inOrder, bind_pure]
  rw [← hbody, apply, applyWith, procedure, Callee.resolve]
  rfl

theorem run_recursion (h : Provides i m.env)
    (hx : m.env.lookup? "xs" = some (.list j (x :: items))) :
    (evaluate (depth + 3) recursion).run m =
      (apply (depth + 2) (procedure i) [.list m.fresh items]).run
        { m with fresh := m.fresh + 1 } := by
  have hs : Special.ofHead? (ref "len") = none := rfl
  have ha : (each (evaluate (depth + 2)) [form "cdr" [ref "xs"]]).run m =
      (.ok [.list m.fresh items], { m with fresh := m.fresh + 1 }) := by
    simp only [each, run_bind, run_cdr h hx, run_pure]
  rw [evaluate, step, hs]
  simp only
  rw [run_callForm (run_ref h.len) rfl rfl, run_bind, ha]
  rfl

theorem run_body_of_condition {b : Bool}
    (hc : (evaluate (depth + 1) condition).run m = (.ok (.bool b), n)) :
    (evaluate (depth + 2) body).run m =
      if b then (.ok (.int 0), n)
      else (evaluate (depth + 1) (form "+" [.int 1, recursion])).run n := by
  have hs : Special.ofHead? (ref "if") = some .choice := rfl
  rw [evaluate, step, hs]
  simp only
  rw [choiceForm, run_bind, hc]
  cases b <;> rfl

theorem run_sum {k : Nat} (h : m.env.lookup? "+" = some (.native (.primitive .add)))
    (hk : k + 1 ≤ 2147483647)
    (hr : (evaluate (depth + 1) recursion).run m = (.ok (.int k), n)) :
    (evaluate (depth + 2) (form "+" [.int 1, recursion])).run m =
      (.ok (.int (k + 1 : Nat)), { n with fresh := n.fresh + 1 }) := by
  have ha : (each (evaluate (depth + 1)) [.int 1, recursion]).run m =
      (.ok [.int 1, .int k], n) := by
    have hone : (evaluate (depth + 1) (.int 1)).run m = (.ok (.int 1), m) := rfl
    simp only [each, run_bind, hone, hr, run_pure]
  have hsum : Primitive.add.compute n.fresh [.int 1, .int k] = .ok (.int (k + 1 : Nat)) := by
    have hr : Value.inRange (1 + (k + 0)) := Value.inRange_iff.mpr (by omega)
    have he : (1 + (k + 0) : Int) = (k + 1 : Nat) := by omega
    exact (Primitive.integer_of_inRange hr).trans (by rw [he])
  rw [run_primitive rfl h ha, hsum]

/-- The scope of the call that counts the rest, when the parameter of the caller is a list with
something in front of `items`. -/
abbrev inner (items : List Value) (m : Machine) : Machine :=
  ⟨m.env.push (frame (.list (m.fresh + 2) items)), m.fresh + 3, m.events⟩

/-- One call counts one element more than the call inside. -/
theorem run_body_cons {k : Nat} {q : Identity} (hk : k + 1 ≤ 2147483647) (h : Provides i m.env)
    (hx : m.env.lookup? "xs" = some (.list j (x :: items)))
    (hinner : (evaluate (depth + 4) body).run (inner items m) =
      (.ok (.int k), { inner items m with fresh := q })) :
    (evaluate (depth + 7) body).run m = (.ok (.int (k + 1 : Nat)), { m with fresh := q + 1 }) := by
  have hr : (evaluate (depth + 5) recursion).run { m with fresh := m.fresh + 2 } =
      (.ok (.int k), { m with fresh := q }) := by
    rw [run_recursion (m := { m with fresh := m.fresh + 2 }) h hx, apply_procedure, run_within,
      hinner]
    rfl
  have hsum : (evaluate (depth + 6) (form "+" [.int 1, recursion])).run
      { m with fresh := m.fresh + 2 } = (.ok (.int (k + 1 : Nat)), { m with fresh := q + 1 }) :=
    run_sum (m := { m with fresh := m.fresh + 2 }) h.add hk hr
  rw [run_body_of_condition (run_condition h hx), List.isEmpty_cons, if_neg Bool.false_ne_true]
  exact hsum

/-- Where the names have their meaning and the parameter is a list, the body counts its elements.
Of the machine it uses up identities alone. -/
theorem run_body (hd : 3 * items.length + 4 ≤ depth) (hn : items.length ≤ 2147483647)
    (h : Provides i m.env) (hx : m.env.lookup? "xs" = some (.list j items)) :
    (evaluate depth body).run m =
      (.ok (.int items.length), { m with fresh := m.fresh + (4 * items.length + 2) }) := by
  induction items generalizing depth j m with
  | nil =>
    obtain ⟨depth, rfl⟩ := Nat.exists_eq_add_of_le' hd
    exact run_body_of_condition (run_condition h hx)
  | cons x items ih =>
    rw [List.length_cons] at hd hn ⊢
    obtain ⟨depth, rfl⟩ := Nat.exists_eq_add_of_le' (show 7 ≤ depth by omega)
    -- the call inside runs three evaluations deeper, in the scope of this one
    have hdepth : 3 * items.length + 4 ≤ depth + 4 := by omega
    have hinner := ih hdepth (Nat.le_of_succ_le hn) (m := inner items m) (h.push _) rfl
    have hfresh (k n : Nat) : k + 3 + (4 * n + 2) + 1 = k + (4 * (n + 1) + 2) := by omega
    rw [run_body_cons hn h hx hinner, hfresh]

/-- Calling the procedure leaves the scopes as they were. -/
theorem run_apply (hd : 3 * items.length + 4 ≤ depth) (hn : items.length ≤ 2147483647)
    (h : Provides i m.env) : (apply depth (procedure i) [.list j items]).run m =
      (.ok (.int items.length), { m with fresh := m.fresh + (4 * items.length + 2) }) := by
  have hbody := run_body (m := { m with env := m.env.push (frame (.list j items)) }) (j := j) hd hn
    (h.push _) rfl
  rw [apply_procedure, run_within, hbody]
  rfl

/-- A smaller bound on nesting breaks the call off or makes no difference to it. -/
theorem halts_or_run_apply (depth : Nat) (hn : items.length ≤ 2147483647) (h : Provides i m.env) :
    Halts (apply depth (procedure i) [.list j items]) m .nesting ∨
      (apply depth (procedure i) [.list j items]).run m =
        (.ok (.int items.length), { m with fresh := m.fresh + (4 * items.length + 2) }) := by
  rw [apply_procedure]
  by_cases hb : Halts (evaluate depth body)
      { m with env := m.env.push (frame (.list j items)) } .nesting
  · exact .inl hb
  · have hle := run_evaluate_of_le (Nat.le_max_left depth (3 * items.length + 4)) hb
    rw [← run_apply (Nat.le_max_right depth (3 * items.length + 4)) hn h, apply_procedure,
      run_within, run_within, hle]
    exact .inr rfl

/-- The text defines a procedure that counts. Wherever its own name and those of the primitives in
it have their meaning, whatever else is bound, it gives the length of any list within the range of
integers; no scope changes and no diagnostics come up. The nesting needed grows with the length; a
bound that does not suffice breaks the call off. -/
theorem counts_elements :
    (∀ s : Session, 0 < s.depth → s.eval source = (.ok .nil, { s with machine :=
      ⟨s.machine.env.define "len" (procedure s.machine.fresh), s.machine.fresh + 1,
        .definedFunction "len" 1 :: s.machine.events⟩ })) ∧
    ∀ i m, Provides i m.env → ∀ j items, items.length ≤ 2147483647 →
      (∀ depth, 3 * items.length + 4 ≤ depth →
        (apply depth (procedure i) [.list j items]).run m =
          (.ok (.int items.length), { m with fresh := m.fresh + (4 * items.length + 2) })) ∧
      ∀ depth, Halts (apply depth (procedure i) [.list j items]) m .nesting ∨
        (apply depth (procedure i) [.list j items]).run m =
          (.ok (.int items.length), { m with fresh := m.fresh + (4 * items.length + 2) }) :=
  ⟨fun _ => eval_source, fun _ _ h _ _ hn => ⟨fun _ hd => run_apply hd hn h,
    fun depth => halts_or_run_apply depth hn h⟩⟩

/-- A list with a symbol, a native and a list in it is counted in a scope that binds the name of the
parameter to something else. -/
theorem counts_elements_of_three :
    ∃ i m, (Session.start.eval source).2.machine = m ∧ m.env.lookup? "len" = some (procedure i) ∧
      (apply 13 (procedure i) [.list 9 [.symbol 0 "xs", .native .begin, .list 3 []]]).run
        { m with env := m.env.push (frame (.int 7)) } =
      (.ok (.int 3), ⟨m.env.push (frame (.int 7)), m.fresh + 14, m.events⟩) := by
  have heval := counts_elements.1 Session.start (by decide)
  refine ⟨_, _, congrArg (·.2.machine) heval, rfl, ?_⟩
  refine (counts_elements.2 _ _ ?_ _ _ (by decide)).1 13 (by decide)
  exact Provides.push ⟨rfl, rfl, rfl, rfl, rfl⟩ _

end DynamicLisp.Length
