import DynamicLisp.Proofs.Eval.Holding
import DynamicLisp.Proofs.Reading.Forms
import DynamicLisp.Session

/-! The life of sessions: the states that texts lead to, the evaluations that occur on the way, and
the scopes in which they occur. Main statement: a discipline that permits the natives and whatever
can be read is kept for life, by every value bound in a scope and by every value returned. -/
namespace DynamicLisp

namespace Session
open Eval

/-- The sessions that texts lead to, whatever came of each; the bound on nesting may be set anew
between them. -/
inductive Reachable : Session → Prop where
  | start (depth : Nat) : (start depth).Reachable
  | eval {s : Session} (h : s.Reachable) (code : String) : (s.eval code).2.Reachable
  | evalEach {s : Session} (h : s.Reachable) (code : String) : (s.evalEach code).2.Reachable
  | limit {s : Session} (h : s.Reachable) (depth : Nat) : Reachable { s with depth := depth }

/-- At some time in the life of a session a form is evaluated, from some machine and with some bound
on the nesting: a form of a text, or one to which another evaluation comes. -/
inductive Occurs : Nat → Value → Machine → Prop where
  | form {s : Session} {code : String} {f : Value} {m : Machine} (h : s.Reachable)
      (hf : Reaches (evaluate s.depth) (Script.ofText code).forms s.machine f m) :
      Occurs s.depth f m
  | within {depth : Nat} {form f : Value} {m m' : Machine} (h : Occurs (depth + 1) form m)
      (hf : Enters (evaluate depth) form m f m') : Occurs depth f m'

/-- The environments of a session: between texts, before and after each evaluation, in the scope of
each call, and those around them. -/
inductive Live : Environment → Prop where
  | between {s : Session} (h : s.Reachable) : Live s.machine.env
  | before {depth : Nat} {f : Value} {m : Machine} (h : Occurs depth f m) : Live m.env
  | after {depth : Nat} {f : Value} {m : Machine} (h : Occurs depth f m) :
      Live ((evaluate depth f).run m).2.env
  | opened {depth : Nat} {i : Identity} {head : Value} {operands args body : List Value}
      {name : String} {params : List String} {m m' : Machine}
      (h : Occurs (depth + 1) (.list i (head :: operands)) m)
      (hs : Special.ofHead? head = none)
      (hc : Calls (evaluate depth) head operands m (.lambda name params body) args m')
      (hl : args.length = params.length) : Live (scopeOf params args m').env
  | around {e : Environment} (h : Live e) : Live e.pop

/-- The values that come back: from an evaluation in the life of a session, from a text given to a
session, or from a program. -/
inductive Returned : Value → Prop where
  | evaluation {depth : Nat} {f v : Value} {m : Machine} (h : Occurs depth f m)
      (hv : ((evaluate depth f).run m).1 = .ok v) : Returned v
  | last {s : Session} {code : String} {v : Value} (h : s.Reachable)
      (hv : (s.eval code).1 = .ok v) : Returned v
  | each {s : Session} {code : String} {v : Value} {vs : List Value} (h : s.Reachable)
      (hvs : (s.evalEach code).1 = .ok vs) (hv : v ∈ vs) : Returned v
  | program {depth : Nat} {tokens : List Token} {v : Value}
      (hv : ((Program.value depth tokens).run Catalog.machine).1 = .ok v) : Returned v

end Session

private theorem respects_finish {D : Discipline} {S : D.Scoping} {α : Type} {p : String → Prop}
    {Q : α → Prop} {a : α} (s : Script) (ha : Q a) : S.Respects p Q (s.finish a) := by
  unfold Script.finish
  split
  · exact Discipline.Scoping.respects_pure ha
  · exact Discipline.Scoping.respects_throw _

/-- The catalog binds natives and truth values. -/
theorem Catalog.holds {P : Value → Prop} (native : ∀ f, P (.native f)) (bool : ∀ b, P (.bool b)) :
    Catalog.environment.Holds P := by
  refine List.forall_mem_singleton.mpr fun b hb => ?_
  rcases List.mem_append.mp hb with hb | hb
  · obtain ⟨f, _, rfl⟩ := List.mem_map.mp hb
    exact native f
  · rcases List.mem_cons.mp hb with rfl | hb
    · exact bool true
    · obtain rfl := List.mem_singleton.mp hb
      exact bool false

/-- Disciplines that every session keeps: they permit the natives and all forms that can be read. -/
structure Discipline.Lasting (D : Discipline) : Prop where
  native (f : Native) : D.data (.native f)
  symbol (x : String) : D.form (.symbol .reader x)
  list {items : List Value} : (∀ f ∈ items, D.form f) → D.form (.list .reader items)

namespace Discipline.Lasting
open Eval Scoping
variable {D : Discipline} (hD : D.Lasting)
include hD

theorem holds_catalog : Catalog.environment.Holds D.data :=
  Catalog.holds hD.native D.bool

theorem form_of_outcome {ts : List Token} {f : Value} (h : (Reading.ofTokens ts).outcome = .ok f) :
    D.form f :=
  Reading.outcome_induction (fun _ hn => D.form_of_data (D.int hn)) hD.symbol
    (fun _ hitems => hD.list hitems) h

theorem forms_of_text (code : String) : ∀ f ∈ (Script.ofText code).forms, D.form f :=
  Script.forms_induction (fun _ hn => D.form_of_data (D.int hn)) hD.symbol
    (fun _ hitems => hD.list hitems) code

/-! ### Texts -/

private theorem respects_forms (S : D.Scoping) (depth : Nat) (code : String) :
    ∀ f ∈ (Script.ofText code).forms, S.Respects (fun _ => True) D.data (evaluate depth f) :=
  fun f hf => (evaluates_evaluate S depth f (hD.forms_of_text code f hf)).mono fun _ _ => trivial

theorem respects_last (S : D.Scoping) (depth : Nat) (code : String) :
    S.Respects (fun _ => True) D.data ((Script.ofText code).last depth) :=
  respects_bind (respects_inOrder D.nil (hD.respects_forms S depth code)) fun _ hv =>
    respects_finish _ hv

theorem respects_values (S : D.Scoping) (depth : Nat) (code : String) :
    S.Respects (fun _ => True) (fun vs => ∀ v ∈ vs, D.data v)
      ((Script.ofText code).values depth) :=
  respects_bind (respects_each (hD.respects_forms S depth code)) fun _ hvs =>
    respects_finish _ hvs

/-- The first form of a text, evaluated as a program, gives a permitted value. -/
theorem respects_value (S : D.Scoping) (depth : Nat) (tokens : List Token) :
    S.Respects (fun _ => True) D.data (Program.value depth tokens) := by
  refine respects_bind (respects_ofHalt fun f hf => hD.form_of_outcome hf) fun f hf => ?_
  exact (evaluates_evaluate S depth f hf).mono fun _ _ => trivial

/-! ### Sessions -/

/-- A session that can be reached holds permitted values only, and its scope has grown from the
catalog. -/
theorem of_reachable {s : Session} (h : s.Reachable) :
    s.machine.env.Holds D.data ∧ Catalog.environment.Grows (fun _ => True) s.machine.env := by
  induction h with
  | start depth => exact ⟨hD.holds_catalog, .refl _ _⟩
  | eval h code ih =>
    obtain ⟨hh, hg, _⟩ := (hD.respects_last D.holding _ code).run ih.1
    exact ⟨hh, ih.2.trans hg⟩
  | evalEach h code ih =>
    obtain ⟨hh, hg, _⟩ := (hD.respects_values D.holding _ code).run ih.1
    exact ⟨hh, ih.2.trans hg⟩
  | limit h depth ih => exact ih

/-- Every evaluation that occurs is one of a form, in a scope that holds permitted values. -/
theorem of_occurs {depth : Nat} {f : Value} {m : Machine} (h : Session.Occurs depth f m) :
    D.form f ∧ m.env.Holds D.data := by
  -- outward from the form of a text: each evaluation inherits from the one that comes to it
  induction h with
  | form h hf =>
    exact holds_of_reaches (evaluates_evaluate _ _) (hD.forms_of_text _) (hD.of_reachable h).1 hf
  | within _ hf ih => exact holds_of_enters (evaluates_evaluate _ _) ih.1 ih.2 hf

/-- Every scope in the life of a session holds permitted values. -/
theorem of_live {e : Environment} (h : Session.Live e) : e.Holds D.data := by
  induction h with
  | between h => exact (hD.of_reachable h).1
  | before h => exact (hD.of_occurs h).2
  | after h =>
    obtain ⟨hf, hm⟩ := hD.of_occurs h
    exact ((evaluates_evaluate D.holding _ _ hf).run hm).1
  | opened h _ hc _ =>
    obtain ⟨hf, hm⟩ := hD.of_occurs h
    exact holds_scopeOf (evaluates_evaluate _ _) hf hm hc
  | around _ ih => exact ih.pop

/-- Every value that comes back is permitted. -/
theorem of_returned {v : Value} (h : Session.Returned v) : D.data v := by
  cases h with
  | evaluation h hv =>
    obtain ⟨hf, hm⟩ := hD.of_occurs h
    exact ((evaluates_evaluate D.holding _ _ hf).run hm).2.2 v hv
  | last h hv => exact ((hD.respects_last D.holding _ _).run (hD.of_reachable h).1).2.2 v hv
  | each h hvs hv =>
    exact ((hD.respects_values D.holding _ _).run (hD.of_reachable h).1).2.2 _ hvs v hv
  | program hv =>
    exact ((hD.respects_value D.holding _ _).run (m := Catalog.machine) hD.holds_catalog).2.2 v hv

end Discipline.Lasting

end DynamicLisp
