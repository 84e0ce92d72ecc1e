import DynamicLisp.Proofs.Eval.Copies
import DynamicLisp.Proofs.Session.History

/-! Equal lambdas in sessions. Main statement: whatever lambda a session has bound, its calls end as
those of every lambda that equals it, in every scope and for all operands. -/
namespace DynamicLisp.Session
open Eval
variable {e : Environment} {v : Value}

/-- The forms of the lambdas of a session come from texts. -/
theorem isSource_of_live (he : Live e) (hv : e.Binds v) {w : Value} (hw : w ∈ v.surface) :
    ∀ f ∈ w.body, f.IsSource := by
  obtain ⟨s, known, t, h, hk⟩ := history_of_live he
  obtain ⟨L, _, hL⟩ := ledger_of_history h
  exact ((hL t v (hk v hv)).has.of_mem_surface hw).lists.body

/-- Lambdas that are equal behave the same. Let a lambda be bound in a scope of a session, or be
part of what is bound there, and let `g` equal it, be it another definition or another copy of its
forms. Then the two, applied to the same operands in any scope, end alike: with the same halt or
with equal values, and with the same names bound to equal values in all frames. -/
theorem equal_lambdas_concur {i : Identity} {name : String} {params : List String}
    {body : List Value} {g : Value} (he : Live e) (hv : e.Binds v)
    (hf : .lambda i name params body ∈ v.surface) (h : (Value.lambda i name params body).equal g)
    (depth : Nat) (args : List Value) (m : Machine) :
    SameEnd ((apply depth (.lambda i name params body) args).run m)
      ((apply depth g args).run m) :=
  sameEnd_of_equal (isSource_of_live he hv hf) h depth args m

/-! A function that defines another one is itself defined twice. -/

abbrev definedTwice : String :=
  "(define (f x) (define (g) x) g) (define e f) (define (f x) (define (g) x) g)"

abbrev definingTwice : Session :=
  ((start 9).eval definedTwice).2

/-- The function, with identity `k` itself and `i` in its forms. -/
abbrev copyOf (k i : Identity) : Value :=
  .lambda k "f" ["x"]
    [.list i [.symbol i "define", .list i [.symbol i "g"], .symbol i "x"], .symbol i "g"]

theorem equal_lambdas_concur_definedTwice :
    definingTwice.machine.env.lookup? "e" = some (copyOf 1 0) ∧
      definingTwice.machine.env.lookup? "f" = some (copyOf 2 0) ∧
      SameEnd ((apply 9 (copyOf 1 0) [.int 5]).run definingTwice.machine)
        ((apply 9 (copyOf 2 0) [.int 5]).run definingTwice.machine) ∧
      SameEnd ((apply 9 (copyOf 1 0) [.int 5]).run definingTwice.machine)
        ((apply 9 (copyOf 7 8) [.int 5]).run definingTwice.machine) := by
  have he : definingTwice.machine.env.lookup? "e" = some (copyOf 1 0) := by cbv
  have hf : definingTwice.machine.env.lookup? "f" = some (copyOf 2 0) := by cbv
  have hlive : Live definingTwice.machine.env := .between (.eval (.start 9) definedTwice)
  have hbound := Environment.binds_of_lookup? he
  have hend : ∀ k i, (copyOf 1 0).equal (copyOf k i) →
      SameEnd ((apply 9 (copyOf 1 0) [.int 5]).run definingTwice.machine)
        ((apply 9 (copyOf k i) [.int 5]).run definingTwice.machine) := fun k i h =>
    equal_lambdas_concur hlive hbound (Value.mem_surface_self _) h 9 [.int 5] definingTwice.machine
  exact ⟨he, hf, hend 2 0 rfl, hend 7 8 rfl⟩

end DynamicLisp.Session
