import Mathlib
import DynamicLisp.Proofs.Eval.Halting
import DynamicLisp.Proofs.Reading.Grammar
import DynamicLisp.Proofs.Reading.Refusals
import DynamicLisp.Proofs.Session.Displays

/-! How texts end that give no value. Main statement: there is a fault, which a command reports, or
evaluations are nested too deeply; only a numeral or a total of more digits than are read or written
ends a text in another way, and such a numeral is in the text and such a total is computed. -/
namespace DynamicLisp

namespace Reading

/-- For what tokens can be refused: a fault found in reading, or a numeral that is too long. -/
inductive Refused (ts : List Token) : Halt → Prop where
  | fault {f : Fault} (hf : Fault.Kind.reading ∈ f.kind.lineage) : Refused ts (.fault f)
  | longNumeral {t : Token} {n : Nat} (ht : t ∈ ts) (hn : t.IsNumeral n)
      (hl : Text.Numeral.maxDigits < n) : Refused ts (.longNumeral n)

variable {ts us : List Token} {e : Halt}

theorem Refused.mono (h : Refused ts e) (hs : ts ⊆ us) : Refused us e := by
  cases h with
  | fault hf => exact .fault hf
  | longNumeral ht hn hl => exact .longNumeral (hs ht) hn hl

private theorem reading_mem_lineage {k : Fault.Kind} (h : k.parent? = some .reading) :
    Fault.Kind.reading ∈ k.lineage :=
  Fault.Kind.mem_lineage_of_parent? h (Fault.Kind.mem_lineage_self .reading)

theorem refused_of_ofTokens (h : (ofTokens ts).outcome = .error e) : Refused ts e := by
  rcases defect_of_read h with hd | ⟨_, ⟨_, rfl⟩ | ⟨_, rfl⟩⟩
  · cases hd with
    | incomplete => exact .fault (reading_mem_lineage rfl)
    | bareMark => exact .fault (reading_mem_lineage rfl)
    | longNumeral ht hn hl => exact .longNumeral ht hn hl
  · exact .fault (reading_mem_lineage rfl)
  · exact .fault (reading_mem_lineage rfl)

end Reading

/-- A defect of a text is something for which its tokens are refused. -/
theorem Script.refused_of_defect {ts : List Token} {e : Halt} (h : (ofTokens ts).defect = some e) :
    Reading.Refused ts e := by
  have hr : Reads ts (ofTokens ts) := reads_iff.mpr rfl
  generalize ofTokens ts = s at h hr
  induction hr with
  | done => cases h
  | defect hr =>
    cases h
    exact Reading.refused_of_ofTokens (congrArg Reading.outcome hr)
  | form hr _ ih =>
    obtain ⟨c, hc, _⟩ := Reading.ofTokens_eq_ok_iff.mp hr
    rw [hc]
    exact (ih h).mono (List.subset_append_right c _)

namespace Eval

/-- How evaluation can end without a value: by a fault that it finds, because it is nested too
deeply, or, if `Long` holds, by a number that is too long to be written. -/
inductive Ending (Long : Prop) : Halt → Prop where
  | fault {f : Fault} (hf : f.isDynamic) : Ending Long (.fault f)
  | nesting : Ending Long .nesting
  | overlong (h : Long) : Ending Long .longNumber

theorem Ending.mono {P Q : Prop} {e : Halt} (h : Ending P e) (hpq : P → Q) : Ending Q e := by
  cases h with
  | fault hf => exact .fault hf
  | nesting => exact .nesting
  | overlong hp => exact .overlong (hpq hp)

open Discipline Discipline.Scoping
variable {depth : Nat} {form : Value} {forms : List Value} {m : Machine} {e : Halt}

/-- Called with what its operands come to, a primitive refuses for a fault or for a total that is
too long. -/
theorem refusal_of_calls {i : Identity} {head : Value} {operands args : List Value} {p : Primitive}
    {m' : Machine} (hform : (Value.list i (head :: operands)).IsRanged)
    (hm : m.env.Holds Value.IsRanged)
    (hc : Calls (evaluate depth) head operands m (.primitive p) args m')
    (he : p.compute m'.fresh args = .error e) : p.Refusal args e := by
  obtain ⟨_, _, _, hargs⟩ :=
    callable_of_calls (evaluates_evaluate ranged.holding depth) hform hm hc
  have hr : ∀ n, Value.int n ∈ args → Value.inRange n := by
    intro n hn
    have hranged : Value.IsRanged (.int n) := hargs (fun hb => nomatch hb) _ hn
    exact Value.isRanged_int.mp hranged
  exact Primitive.refusal_of_compute hr he

/-- One step more: what it halts for comes from a form that it enters, or from a call. -/
private theorem ending_of_origin (hform : form.IsRanged) (hm : m.env.Holds Value.IsRanged)
    (h : Origin (evaluate depth) form m e)
    (ih : ∀ f m', Enters (evaluate depth) form m f m' → Halts (evaluate depth f) m' e →
      Ending (Overruns depth f m') e) : Ending (Overruns (depth + 1) form m) e := by
  cases h with
  | fault hf => exact .fault hf
  | inner hf he => exact (ih _ _ hf he).mono fun ho => .inner hf ho
  | primitive hs hc he =>
    cases refusal_of_calls hform hm hc he with
    | fault hf => exact .fault hf
    | overlong ht hn => exact .overlong (.total hs hc ht hn)

/-- Evaluation of a form in range in a scope that holds values in range. -/
theorem ending_of_evaluate (hform : form.IsRanged) (hm : m.env.Holds Value.IsRanged)
    (h : Halts (evaluate depth form) m e) : Ending (Overruns depth form m) e := by
  induction depth generalizing form m with
  | zero =>
    cases h
    exact .nesting
  | succ depth ih =>
    have hv : form.isShowable := Value.isShowable_of_isRanged hform
    refine ending_of_origin hform hm (origin_of_step (fun _ => hv) h) fun f m' hf he => ?_
    obtain ⟨hform', hm'⟩ := holds_of_enters (evaluates_evaluate ranged.holding depth) hform hm hf
    exact ih hform' hm' he

/-- Evaluating the forms in order, one of them comes to a number that is too long to be written. -/
def Strains (depth : Nat) (forms : List Value) (m : Machine) : Prop :=
  ∃ f m', Reaches (evaluate depth) forms m f m' ∧ Overruns depth f m'

theorem ending_of_reaches {f : Value} {m' : Machine} (hforms : ∀ f ∈ forms, f.IsRanged)
    (hm : m.env.Holds Value.IsRanged) (hr : Reaches (evaluate depth) forms m f m')
    (h : Halts (evaluate depth f) m' e) : Ending (Strains depth forms m) e := by
  obtain ⟨hf, hm'⟩ := holds_of_reaches (evaluates_evaluate ranged.holding depth) hforms hm hr
  exact (ending_of_evaluate hf hm' h).mono fun ho => ⟨f, m', hr, ho⟩

end Eval

/-! ### Texts -/

namespace Script
open Eval
variable {depth : Nat} {s : Script} {m : Machine} {e : Halt}

theorem halts_finish {α : Type} {a : α} : Halts (s.finish a) m e ↔ s.defect = some e := by
  unfold finish
  cases s.defect with
  | none => exact ⟨fun h => (nomatch h), fun h => (nomatch h)⟩
  | some e' =>
    constructor
    · intro h
      cases h
      rfl
    · intro h
      cases h
      rfl

/-- Both ways to evaluate a script halt where one of its forms does, or at its defect. -/
theorem halts_last (h : Halts (s.last depth) m e) :
    (∃ f m', Reaches (evaluate depth) s.forms m f m' ∧ Halts (evaluate depth f) m' e) ∨
      s.defect = some e := by
  rcases halts_bind.mp h with h | ⟨v, m', _, h⟩
  · exact .inl (halts_inOrder.mp h)
  · exact .inr (halts_finish.mp h)

theorem halts_values (h : Halts (s.values depth) m e) :
    (∃ f m', Reaches (evaluate depth) s.forms m f m' ∧ Halts (evaluate depth f) m' e) ∨
      s.defect = some e := by
  rcases halts_bind.mp h with h | ⟨vs, m', _, h⟩
  · exact .inl (halts_each.mp h)
  · exact .inr (halts_finish.mp h)

end Script

namespace Session
open Eval Discipline

/-- The text makes the session compute a number that is too long to be written. -/
def Strains (s : Session) (code : String) : Prop :=
  Eval.Strains s.depth (Script.ofText code).forms s.machine

theorem ending_of_text {s : Session} (hs : s.Reachable) {code : String} {e : Halt}
    (h : (s.eval code).1 = .error e ∨ (s.evalEach code).1 = .error e) :
    Reading.Refused (Token.ofText code) e ∨ Ending (s.Strains code) e := by
  have hm : s.machine.env.Holds Value.IsRanged := (lasting_ranged.of_reachable hs).1
  have hforms : ∀ f ∈ (Script.ofText code).forms, f.IsRanged := lasting_ranged.forms_of_text code
  have hc : (∃ f m', Reaches (evaluate s.depth) (Script.ofText code).forms s.machine f m' ∧
      Halts (evaluate s.depth f) m' e) ∨ (Script.ofText code).defect = some e :=
    h.elim Script.halts_last Script.halts_values
  rcases hc with ⟨f, m', hr, hf⟩ | hd
  · exact .inr (ending_of_reaches hforms hm hr hf)
  · exact .inl (Script.refused_of_defect hd)

theorem halts_of_strains {s : Session} {code : String} (h : s.Strains code) :
    (s.eval code).1 = .error .longNumber ∧ (s.evalEach code).1 = .error .longNumber := by
  obtain ⟨f, m', hr, ho⟩ := h
  have hf := halts_of_overruns ho
  exact ⟨halts_bind.mpr (.inl (halts_inOrder.mpr ⟨f, m', hr, hf⟩)),
    halts_bind.mpr (.inl (halts_each.mpr ⟨f, m', hr, hf⟩))⟩

end Session

namespace Program
open Eval Discipline

/-- The first form of a text makes a program compute a number that is too long to be written. -/
def Strains (source : String) (depth : Nat) : Prop :=
  ∃ f, (Reading.ofTokens (Token.ofText source)).outcome = .ok f ∧
    Overruns depth f Catalog.machine

variable {source : String} {depth : Nat} {e : Halt}

theorem ending_of_run (h : (run source depth).1 = .error e) :
    Reading.Refused (Token.ofText source) e ∨ Ending (Strains source depth) e := by
  rw [fst_run] at h
  have hd : Halts (display depth (Token.ofText source)) Catalog.machine e := h
  rcases halts_bind.mp hd with hv | ⟨v, m, hv, hd⟩
  · rcases halts_bind.mp hv with hr | ⟨f, m, hr, hf⟩
    · exact .inl (Reading.refused_of_ofTokens (halts_ofHalt.mp hr))
    · rw [run_ofHalt] at hr
      have ho : (Reading.ofTokens (Token.ofText source)).outcome = .ok f := congrArg Prod.fst hr
      obtain rfl : Catalog.machine = m := congrArg Prod.snd hr
      have hform : f.IsRanged := lasting_ranged.form_of_outcome ho
      have he := ending_of_evaluate hform lasting_ranged.holds_catalog hf
      exact .inr (he.mono fun h => ⟨f, ho, h⟩)
  · have hret : Session.Returned v := .program (congrArg Prod.fst hv)
    rw [Session.display?_of_returned hret] at hd
    cases hd

theorem halts_of_strains (h : Strains source depth) :
    (run source depth).1 = .error .longNumber := by
  obtain ⟨f, hr, ho⟩ := h
  have hv : Halts (value depth (Token.ofText source)) Catalog.machine .longNumber := by
    refine halts_bind.mpr (.inr ⟨f, Catalog.machine, ?_, halts_of_overruns ho⟩)
    rw [hr]
    rfl
  rw [fst_run]
  exact halts_bind.mpr (.inl hv)

end Program

namespace Command
open Eval

/-- The program of a command comes to a number that is too long to be written. -/
def Strains (depth : Nat) (session : Bool) (program : String) : Prop :=
  if session then (Session.start depth).Strains program else Program.Strains program depth

theorem refused_or_ending {depth : Nat} {session : Bool} {program : String} {e : Halt}
    (h : (evaluate depth session program).1 = .error e) :
    Reading.Refused (Token.ofText program) e ∨ Eval.Ending (Strains depth session program) e := by
  cases session with
  | true =>
    rw [Session.evaluate_session] at h
    exact Session.ending_of_text (.start depth) (.inr (Primitive.map_eq_error h))
  | false =>
    rw [Session.evaluate_program] at h
    exact Program.ending_of_run (Primitive.map_eq_error h)

end Command

namespace Session
open Eval

/-- What ends a text that gives no value. Reading refuses tokens for a fault of reading or a numeral
that is too long. Sessions and programs end with such a refusal, with a fault that evaluation finds,
by its nesting, or, if they strain, with a number that is too long to be written; and if they
strain, that is how they end. A command writes nothing of a program that ends so; it reports the
message of a fault and has the status 1, and any other end breaks it off. Before it comes to its
program, a command may break off because its limit on recursion is refused. -/
theorem endings {s : Session} (hs : s.Reachable) (code : String) (depth : Nat) :
    (∀ e, (Reading.ofTokens (Token.ofText code)).outcome = .error e →
      Reading.Refused (Token.ofText code) e) ∧
    (∀ e, (s.eval code).1 = .error e ∨ (s.evalEach code).1 = .error e →
      Reading.Refused (Token.ofText code) e ∨ Ending (s.Strains code) e) ∧
    (s.Strains code →
      (s.eval code).1 = .error .longNumber ∧ (s.evalEach code).1 = .error .longNumber) ∧
    (∀ e, (Program.run code depth).1 = .error e →
      Reading.Refused (Token.ofText code) e ∨ Ending (Program.Strains code depth) e) ∧
    (Program.Strains code depth → (Program.run code depth).1 = .error .longNumber) ∧
    (∀ host args e, host.nesting = .ok depth → args.source.fetch host = .ok code →
      (Command.evaluate depth args.session code).1 = .error e →
      (Reading.Refused (Token.ofText code) e ∨
        Ending (Command.Strains depth args.session code) e) ∧
      (Command.execute host args).output = "" ∧
      (∀ f, e = .fault f → (Command.execute host args).outcome = .ok 1 ∧
        ∃ log : List String, (Command.execute host args).diagnostics =
          String.join (log.map fun line => line ++ "\n") ++ "error: " ++ f.message ++ "\n") ∧
      ((∀ f, e ≠ .fault f) → (Command.execute host args).outcome = .error (.halt e))) ∧
    ∀ host args d, host.nesting = .error d →
      (Command.execute host args).outcome = .error (.limit d) := by
  refine ⟨fun e h => Reading.refused_of_ofTokens h, ?_, ?_, ?_, ?_, ?_, ?_⟩
  · exact fun e h => ending_of_text hs h
  · exact fun h => halts_of_strains h
  · exact fun e h => Program.ending_of_run h
  · exact fun h => Program.halts_of_strains h
  · intro host args e hn hf hr
    refine ⟨Command.refused_or_ending hr, Command.output_of_halt hn hf hr, ?_, ?_⟩
    · rintro f rfl
      exact Command.execute_of_fault hn hf hr
    · exact fun he => Command.outcome_of_halt hn hf hr he
  · exact fun host args d h => (Command.execute_of_refused h).1

/-! A fault found in a call ends the text, though another form follows. -/

abbrev withFault : String :=
  "(define (f x) (cdr x)) (f (+ 1 2)) (f 5"

theorem endings_withFault :
    (start 9).Reachable ∧ ((start 9).eval withFault).1 = .error (.fault (.notPair "CDR")) ∧
      (Reading.Refused (Token.ofText withFault) (.fault (.notPair "CDR")) ∨
        Ending ((start 9).Strains withFault) (.fault (.notPair "CDR"))) := by
  have h : ((start 9).eval withFault).1 = .error (.fault (.notPair "CDR")) := by cbv
  exact ⟨.start 9, h, (endings (.start 9) withFault 9).2.1 _ (.inl h)⟩

/-! ### Ends that are no faults -/

private theorem wordsFrom_of_forall {word cs : List Char} (h : ∀ c ∈ cs, Text.isBlank c = false) :
    Text.wordsFrom word cs = Text.closeWord (cs.reverse ++ word) := by
  induction cs generalizing word with
  | nil => rfl
  | cons c cs ih =>
    obtain ⟨hc, hcs⟩ := List.forall_mem_cons.mp h
    rw [Text.wordsFrom, hc, if_neg Bool.false_ne_true, ih hcs]
    simp

/-- A row of one digit is a token. -/
private theorem ofText_replicate (n : Nat) :
    Token.ofText (String.ofList (List.replicate (n + 1) '1')) =
      [String.ofList (List.replicate (n + 1) '1')] := by
  have hp : (List.replicate (n + 1) '1').flatMap Token.pad = List.replicate (n + 1) '1' := by
    induction n with
    | zero => rfl
    | succ n ih =>
      rw [List.replicate_succ, List.flatMap_cons, ih]
      rfl
  have hb : ∀ c ∈ List.replicate (n + 1) '1', Text.isBlank c = false := by
    intro c hc
    rw [(List.mem_replicate.mp hc).2]
    rfl
  rw [Token.ofText, String.toList_ofList, hp, Text.words, wordsFrom_of_forall hb]
  simp [Text.closeWord]

private theorem run_each_replicate (n : Nat) (k : Int) (m : Machine) :
    (each (evaluate 1) (List.replicate n (.int k))).run m =
      (.ok (List.replicate n (.int k)), m) := by
  induction n with
  | zero => rfl
  | succ n ih =>
    have hk : (evaluate 1 (.int k)).run m = (.ok (.int k), m) := rfl
    rw [List.replicate_succ, each, run_bind, hk]
    simp only [run_bind, ih, run_pure]

private theorem total?_replicate (n : Nat) (k : Int) :
    Primitive.total? .mul (List.replicate n (.int k)) = some (k ^ n) := by
  have hi : Primitive.integers (List.replicate n (.int k)) = List.replicate n k := by
    simp [Primitive.integers]
  rw [Primitive.total?, hi, List.prod_replicate]

private theorem le_natAbs_pow (k : Nat) : 10 ^ (93 * k) ≤ (2147483647 ^ (10 * k) : Int).natAbs := by
  rw [Int.natAbs_pow, pow_mul, pow_mul]
  exact Nat.pow_le_pow_left (by norm_num) k

abbrev factors : List Value :=
  List.replicate (10 * 47) (.int 2147483647)

/-- The greatest integer, multiplied with itself so often that the product is too long. -/
abbrev product : Value :=
  .list 0 (.symbol 0 "*" :: factors)

private theorem overruns_product : Overruns 2 product Catalog.machine := by
  have hc : Calls (evaluate 1) (.symbol 0 "*") factors Catalog.machine (.primitive .mul) factors
      Catalog.machine :=
    ⟨.native (.primitive .mul), factors, Catalog.machine, by cbv, rfl, run_each_replicate _ _ _,
      Callee.resolve_primitive _ _⟩
  have hn : Text.isWritable (2147483647 ^ (10 * 47)) = false :=
    Value.isWritable_eq_false (le_natAbs_pow 47) (by decide)
  exact .total rfl hc (total?_replicate _ _) hn

/-- The text of a numeral with 4301 digits is refused, and the product is not computed, but neither
for a fault. -/
theorem endings_beyondFaults :
    (Reading.ofTokens (Token.ofText (String.ofList (List.replicate 4301 '1')))).outcome =
        .error (.longNumeral 4301) ∧
      Halts (evaluate 2 product) Catalog.machine .longNumber := by
  have hn : Token.IsNumeral (String.ofList (List.replicate 4301 '1')) 4301 :=
    ⟨[], List.replicate 4301 '1', String.toList_ofList, by simp, List.length_replicate,
      fun c hc => by rw [(List.mem_replicate.mp hc).2]; rfl⟩
  have he := Value.ofToken_eq_error_iff.mpr ⟨4301, rfl, by decide, hn⟩
  rw [ofText_replicate, Reading.ofTokens_of_error he]
  exact ⟨rfl, halts_of_overruns overruns_product⟩

end Session

end DynamicLisp
