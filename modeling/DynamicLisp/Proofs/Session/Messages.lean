import Mathlib
import DynamicLisp.Proofs.Eval.Wording
import DynamicLisp.Proofs.Reading.Refusals
import DynamicLisp.Proofs.Reading.RoundTrip
import DynamicLisp.Proofs.Session.Life

/-! What sessions and programs say. Names that are read hold no blank, so whatever fault a text ends
with is told on one line, and whatever it gives can be shown on one. -/
namespace DynamicLisp

theorem Value.IsForm.isLined {v : Value} (h : v.IsForm) : v.IsLined := by
  induction h with
  | int => exact isLined_of_ownTexts_eq_nil rfl rfl
  | symbol hx =>
    refine isLined_symbol.mpr fun c hc hb => ?_
    rw [(hx.word.solid c hc).1] at hb
    cases hb
  | list _ ih => exact isLined_list.mpr ih

namespace Script
open Eval Value

/-- The forms of a text are forms that can be read, also those in front of a defect. -/
theorem isForm_of_mem_forms {ts : List Token} (hts : ∀ t ∈ ts, t.IsWhole) :
    ∀ f ∈ (ofTokens ts).forms, f.IsForm := by
  have hr : Reads ts (ofTokens ts) := reads_iff.mpr rfl
  generalize ofTokens ts = s at hr
  induction hr with
  | done => exact fun f hf => (List.not_mem_nil hf).elim
  | defect => exact fun f hf => (List.not_mem_nil hf).elim
  | form hr _ ih =>
    obtain ⟨c, hc, hs⟩ := Reading.ofTokens_eq_ok_iff.mp hr
    rw [hc] at hts
    obtain ⟨hfront, hrest⟩ := List.forall_mem_append.mp hts
    exact List.forall_mem_cons.mpr ⟨isForm_of_spells hs hfront, ih hrest⟩

theorem isLined_of_mem_forms (code : String) : ∀ f ∈ (ofText code).forms, f.IsLined := fun f hf =>
  (isForm_of_mem_forms (fun _ ht => Token.isWhole_of_mem_ofText ht) f hf).isLined

end Script

/-- What stops the reading of a form is told without a word of the text. -/
theorem Reading.isLined_of_ofTokens {ts : List Token} {e : Halt}
    (h : (ofTokens ts).outcome = .error e) : e.IsLined := by
  have hnone : ∀ f : Fault, f.texts = [] → Halt.IsLined (.fault f) :=
    fun _ hf => Fault.isLined_of_texts_eq_nil hf
  rcases defect_of_read h with hd | ⟨_, ⟨_, rfl⟩ | ⟨_, rfl⟩⟩
  · cases hd with
    | incomplete => exact hnone _ rfl
    | bareMark => exact hnone _ rfl
    | longNumeral => trivial
  · exact hnone _ rfl
  · exact hnone _ rfl

theorem Script.isLined_of_defect {ts : List Token} {e : Halt} (h : (ofTokens ts).defect = some e) :
    e.IsLined := by
  have hr : Reads ts (ofTokens ts) := reads_iff.mpr rfl
  generalize ofTokens ts = s at h hr
  induction hr with
  | done => cases h
  | defect hr =>
    cases h
    exact Reading.isLined_of_ofTokens (congrArg Reading.outcome hr)
  | form _ _ ih => exact ih h

namespace Session
open Eval Value

private theorem words_finish {α : Type} {Q : α → Prop} {a : α} (code : String) (ha : Q a) :
    Words Q ((Script.ofText code).finish a) := by
  unfold Script.finish
  split
  · exact words_pure ha
  · next e hd => exact words_throw (Script.isLined_of_defect hd)

private theorem words_forms (depth : Nat) (code : String) :
    ∀ f ∈ (Script.ofText code).forms, Words IsLined (evaluate depth f) := fun f hf =>
  words_evaluate depth (Script.isLined_of_mem_forms code f hf)

theorem words_last (depth : Nat) (code : String) :
    Words IsLined ((Script.ofText code).last depth) :=
  words_bind (words_inOrder isLined_nil (words_forms depth code)) fun _ hv => words_finish code hv

theorem words_values (depth : Nat) (code : String) :
    Words (fun vs => ∀ v ∈ vs, v.IsLined) ((Script.ofText code).values depth) :=
  words_bind (words_each (words_forms depth code)) fun _ hvs => words_finish code hvs

theorem holds_catalog_lined : Catalog.environment.Holds IsLined :=
  Catalog.holds (fun _ => isLined_of_ownTexts_eq_nil rfl rfl)
    fun _ => isLined_of_ownTexts_eq_nil rfl rfl

/-- In every session that texts lead to, the values bound are lined. -/
theorem lined_of_reachable {s : Session} (h : s.Reachable) : s.machine.env.Holds IsLined := by
  induction h with
  | start depth => exact holds_catalog_lined
  | eval _ code ih => exact (words_last _ code _ ih).scope
  | evalEach _ code ih => exact (words_values _ code _ ih).scope
  | limit _ depth ih => exact ih

theorem isLined_of_evalEach {s : Session} (h : s.Reachable) {code : String} {vs : List Value}
    (hvs : (s.evalEach code).1 = .ok vs) : ∀ v ∈ vs, v.IsLined :=
  (words_values _ code _ (lined_of_reachable h)).value vs hvs

/-- The fault with which a text ends is told on one line. -/
theorem isLine_of_text {s : Session} (h : s.Reachable) {code : String} {f : Fault}
    (he : (s.eval code).1 = .error (.fault f) ∨ (s.evalEach code).1 = .error (.fault f)) :
    Text.IsLine f.message := by
  have hm := lined_of_reachable h
  have hf : f.IsLined := by
    rcases he with he | he
    · exact (words_last _ code _ hm).halt _ he
    · exact (words_values _ code _ hm).halt _ he
  exact hf.isLine_message

end Session

namespace Program
open Eval Value

theorem words_value (depth : Nat) (source : String) :
    Words IsLined (value depth (Token.ofText source)) := by
  have hform : Words IsLined (ofHalt (Reading.ofTokens (Token.ofText source)).outcome) :=
    words_ofHalt (fun _ hf => (isForm_of_read hf).isLined) fun _ he =>
      Reading.isLined_of_ofTokens he
  exact words_bind hform fun _ hf => words_evaluate depth hf

theorem words_display (depth : Nat) (source : String) :
    Words Text.IsLine (display depth (Token.ofText source)) :=
  words_bind (words_value depth source) fun _ hv => Eval.words_display hv

theorem isLined_of_value {depth : Nat} {source : String} {v : Value}
    (h : ((value depth (Token.ofText source)).run Catalog.machine).1 = .ok v) : v.IsLined :=
  (words_value depth source Catalog.machine Session.holds_catalog_lined).value v h

/-- So is the fault with which a program ends. -/
theorem isLine_of_run {source : String} {depth : Nat} {f : Fault}
    (h : (run source depth).1 = .error (.fault f)) : Text.IsLine f.message := by
  rw [fst_run] at h
  have hf : f.IsLined :=
    (words_display depth source Catalog.machine Session.holds_catalog_lined).halt _ h
  exact hf.isLine_message

end Program

end DynamicLisp
