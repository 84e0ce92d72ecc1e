import DynamicLisp.Proofs.Eval.Recording
import DynamicLisp.Proofs.Session.Interleaving
import DynamicLisp.Proofs.Session.Life

/-! Histories of sessions: the values that a session has had, with the machine at the moment when
each was there. Main statement: one ledger has them all, so values that are the same are alike, and
a value with the next identity is the same as none of them. -/
namespace DynamicLisp

namespace Session
open Eval

/-- The values that arise while a text is evaluated. -/
def Brings (s : Session) (code : String) (t : Machine) (v : Value) : Prop :=
  ∃ f m, Reaches (evaluate s.depth) (Script.ofText code).forms s.machine f m ∧
    Arises s.depth f m t v

/-- The sessions that texts lead to, each with the values that it has had, and when: those bound in
the beginning, those that arise while texts are evaluated, and those bound or returned after each
text. -/
inductive History : Session → (Machine → Value → Prop) → Prop where
  | start (depth : Nat) : History (start depth) fun t v => t = Catalog.machine ∧ t.env.Binds v
  | eval {s : Session} {known : Machine → Value → Prop} (h : History s known) (code : String) :
      History (s.eval code).2 fun t v => known t v ∨ s.Brings code t v ∨
        t = (s.eval code).2.machine ∧ (t.env.Binds v ∨ (s.eval code).1 = .ok v)
  | evalEach {s : Session} {known : Machine → Value → Prop} (h : History s known) (code : String) :
      History (s.evalEach code).2 fun t v => known t v ∨ s.Brings code t v ∨
        t = (s.evalEach code).2.machine ∧
          (t.env.Binds v ∨ ∃ vs, (s.evalEach code).1 = .ok vs ∧ v ∈ vs)
  | limit {s : Session} {known : Machine → Value → Prop} (h : History s known) (depth : Nat) :
      History { s with depth := depth } known

/-- A value is there: it is known, or it can be taken out of one that is. -/
def Present (known : Machine → Value → Prop) (t : Machine) (w : Value) : Prop :=
  ∃ v, known t v ∧ w ∈ v.surface

/-- A value was there before the machine was `m`. -/
def Existed (m : Machine) (w : Value) : Prop :=
  ∃ s known t, History s known ∧ Present known t w ∧ Elapses t m

/-- Every session that can be reached has a history, to which what it binds belongs. -/
theorem history_of_reachable {s : Session} (h : s.Reachable) :
    ∃ known, History s known ∧ ∀ v, s.machine.env.Binds v → known s.machine v := by
  induction h with
  | start depth => exact ⟨_, .start depth, fun v hv => ⟨rfl, hv⟩⟩
  | eval _ code ih =>
    obtain ⟨known, hk, _⟩ := ih
    exact ⟨_, .eval hk code, fun v hv => .inr (.inr ⟨rfl, .inl hv⟩)⟩
  | evalEach _ code ih =>
    obtain ⟨known, hk, _⟩ := ih
    exact ⟨_, .evalEach hk code, fun v hv => .inr (.inr ⟨rfl, .inl hv⟩)⟩
  | limit _ depth ih =>
    obtain ⟨known, hk, hv⟩ := ih
    exact ⟨known, .limit hk depth, hv⟩

/-- What arises in an evaluation in the life of a session belongs to one history. -/
theorem history_of_occurs {depth : Nat} {f : Value} {m : Machine} (h : Occurs depth f m) :
    ∃ s known, History s known ∧ ∀ t v, Arises depth f m t v → known t v := by
  induction h with
  | @form s code f m hs hf =>
    obtain ⟨known, hk, _⟩ := history_of_reachable hs
    exact ⟨_, _, .eval hk code, fun t v ha => .inr (.inl ⟨f, m, hf, ha⟩)⟩
  | within _ hf ih =>
    obtain ⟨s, known, hk, ha⟩ := ih
    exact ⟨s, known, hk, fun t v h => ha t v (.within hf h)⟩

/-- What is bound in a scope in the life of a session belongs to one history. -/
theorem history_of_live {e : Environment} (h : Live e) :
    ∃ s known t, History s known ∧ ∀ v, e.Binds v → known t v := by
  induction h with
  | between hs =>
    obtain ⟨known, hk, hv⟩ := history_of_reachable hs
    exact ⟨_, known, _, hk, hv⟩
  | before ho =>
    obtain ⟨s, known, hk, ha⟩ := history_of_occurs ho
    exact ⟨s, known, _, hk, fun v hv => ha _ v (.before hv)⟩
  | after ho =>
    obtain ⟨s, known, hk, ha⟩ := history_of_occurs ho
    exact ⟨s, known, _, hk, fun v hv => ha _ v (.after hv)⟩
  | opened ho hs hc hl =>
    obtain ⟨s, known, hk, ha⟩ := history_of_occurs ho
    exact ⟨s, known, _, hk, fun v hv => ha _ v (.opened hs hc hl hv)⟩
  | around _ ih =>
    obtain ⟨s, known, t, hk, ha⟩ := ih
    exact ⟨s, known, t, hk, fun v hv => ha v hv.of_pop⟩

private theorem snd_run_finish {α : Type} (p : Script) (a : α) (m : Machine) :
    ((p.finish a).run m).2 = m := by
  unfold Script.finish
  cases p.defect <;> rfl

private theorem machine_eval (s : Session) (code : String) : (s.eval code).2.machine =
    ((each (evaluate s.depth) (Script.ofText code).forms).run s.machine).2 := by
  show (((Script.ofText code).last s.depth).run s.machine).2 = _
  rw [Script.last_eq_each, snd_run_bind fun _ => snd_run_finish _ _]

private theorem machine_evalEach (s : Session) (code : String) : (s.evalEach code).2.machine =
    ((each (evaluate s.depth) (Script.ofText code).forms).run s.machine).2 :=
  snd_run_bind (fun _ => snd_run_finish _ _) s.machine

private theorem elapses_of_brings {s : Session} {code : String} {t : Machine} {v : Value}
    (h : s.Brings code t v) :
    Elapses t ((each (evaluate s.depth) (Script.ofText code).forms).run s.machine).2 := by
  obtain ⟨f, m, hf, ha⟩ := h
  exact .trans ha.elapses.2 ((orders_elapses s.depth).reaches_each hf)

/-- No later than the end of a text are the values known before it, those that arise in it and those
that it leaves behind. -/
private theorem elapses_of_text {s : Session} {code : String} {t n : Machine} {v : Value}
    {K P : Prop} (hn : n = ((each (evaluate s.depth) (Script.ofText code).forms).run s.machine).2)
    (hk : K → Elapses t s.machine) (h : K ∨ s.Brings code t v ∨ t = n ∧ P) : Elapses t n := by
  rw [hn] at h ⊢
  rcases h with h | h | ⟨rfl, _⟩
  · exact .trans (hk h) ((orders_elapses s.depth).each _ _)
  · exact elapses_of_brings h
  · exact .refl _

/-- What a session has had was there before it came to its present machine. -/
theorem elapses_of_history {s : Session} {known : Machine → Value → Prop} (h : History s known)
    {t : Machine} {v : Value} (hv : known t v) : Elapses t s.machine := by
  induction h with
  | start depth =>
    rw [hv.1]
    exact .refl _
  | @eval s _ _ code ih => exact elapses_of_text (machine_eval s code) ih hv
  | @evalEach s _ _ code ih => exact elapses_of_text (machine_evalEach s code) ih hv
  | limit h depth ih => exact ih hv

/-! ### The ledger of a session -/

private theorem isSource_of_text (code : String) :
    ∀ f ∈ (Script.ofText code).forms, f.IsSource := by
  refine Script.forms_induction (P := Value.IsSource) ?_ ?_ ?_ code
  · exact fun n _ => List.forall_mem_singleton.mpr fun _ => rfl
  · exact fun x => List.forall_mem_singleton.mpr fun h => nomatch h
  · exact fun items h => Value.isSource_list.mpr h

private theorem records_finish {α : Type} {L : Ledger} {Q : Ledger → α → Prop} {m : Machine} {a : α}
    (p : Script) (hm : L.Fits m) (ha : Q L a) :
    L.Records (fun _ _ => False) Q ((p.finish a).run m) := by
  unfold Script.finish
  cases p.defect with
  | none => exact Ledger.records_ok hm ha fun _ _ h => h
  | some e => exact Ledger.records_error hm fun _ _ h => h

private theorem records_last {L : Ledger} {s : Session} (hm : L.Fits s.machine) (code : String) :
    L.Records (s.Brings code) Ledger.Has
      (((Script.ofText code).last s.depth).run s.machine) := by
  have hrow := Ledger.records_inOrder (Ledger.recordsForms_evaluate s.depth) hm
    fun f hf => .inl (isSource_of_text code f hf)
  exact (hrow.bind (s := fun _ _ _ _ => False) fun v m₁ M _ _ hm₁ hv =>
    records_finish _ hm₁ hv).weaken fun _ _ => .inl

private theorem records_values {L : Ledger} {s : Session} (hm : L.Fits s.machine) (code : String) :
    L.Records (s.Brings code) (fun M vs => ∀ v ∈ vs, M.Has v)
      (((Script.ofText code).values s.depth).run s.machine) := by
  have hrow := Ledger.records_each (Ledger.recordsForms_evaluate s.depth) hm
    fun f hf => .inl (isSource_of_text code f hf)
  exact (hrow.bind (s := fun _ _ _ _ => False) fun vs m₁ M _ _ hm₁ hvs =>
    records_finish (Q := fun M vs => ∀ v ∈ vs, M.Has v) _ hm₁ hvs).weaken fun _ _ => .inl

/-- A ledger continued over a text has what was known before, what arises and what is left. -/
private theorem fits_of_records {α : Type} {L : Ledger} {s : Session} {code : String}
    {known : Machine → Value → Prop} {Q : Ledger → α → Prop} {r : Except Halt α × Machine}
    {P : Value → Prop} (hk : ∀ t v, known t v → L.HasAt t.fresh v)
    (h : L.Records (s.Brings code) Q r)
    (hP : ∀ M : Ledger, (∀ a, r.1 = .ok a → Q M a) → ∀ v, P v → M.Has v) :
    ∃ M : Ledger, M.Fits r.2 ∧ ∀ t v,
      known t v ∨ s.Brings code t v ∨ t = r.2 ∧ (t.env.Binds v ∨ P v) → M.HasAt t.fresh v := by
  obtain ⟨M, hM, hm, hs, hq⟩ := h
  refine ⟨M, hm, ?_⟩
  rintro t v (hv | hv | ⟨rfl, hv | hv⟩)
  · exact (hk t v hv).mono hM
  · exact hs t v hv
  · exact hm.hasAt (hm.env.of_binds hv)
  · exact hm.hasAt (hP M hq v hv)

/-- One ledger has everything that a session has had. -/
theorem ledger_of_history {s : Session} {known : Machine → Value → Prop} (h : History s known) :
    ∃ L : Ledger, L.Fits s.machine ∧ ∀ t v, known t v → L.HasAt t.fresh v := by
  induction h with
  | start depth =>
    have hm : (⟨Catalog.machine.fresh, fun _ => .nil⟩ : Ledger).Fits Catalog.machine :=
      ⟨rfl, Catalog.holds (fun _ => Ledger.has_of_identity?_eq_none rfl)
        fun _ => Ledger.has_of_identity?_eq_none rfl⟩
    refine ⟨_, hm, ?_⟩
    rintro t v ⟨rfl, hv⟩
    exact hm.hasAt (hm.env.of_binds hv)
  | @eval s known h code ih =>
    obtain ⟨L, hm, hk⟩ := ih
    exact fits_of_records hk (records_last hm code) fun M hq => hq
  | @evalEach s known h code ih =>
    obtain ⟨L, hm, hk⟩ := ih
    exact fits_of_records hk (records_values hm code) fun M hq v ⟨vs, hvs, hv⟩ => hq vs hvs v hv
  | limit h depth ih => exact ih

variable {s : Session} {known : Machine → Value → Prop} {t t' m : Machine} {u v w : Value}

theorem Present.hasAt {L : Ledger} (hk : ∀ t v, known t v → L.HasAt t.fresh v)
    (h : Present known t w) : L.HasAt t.fresh w := by
  obtain ⟨v, hv, hw⟩ := h
  have hat := hk t v hv
  exact ⟨hat.has.of_mem_surface hw, fun u hu => hat.below u (Value.surface_subset_of_mem hw hu)⟩

theorem existed_of_present (h : History s known) (hp : Present known t w) :
    Existed s.machine w := by
  refine ⟨s, known, t, h, hp, ?_⟩
  obtain ⟨v, hv, _⟩ := hp
  exact elapses_of_history h hv

/-- In the life of one session the same value has one content. -/
theorem eq_of_same (h : History s known) (hu : Present known t u) (hv : Present known t' v)
    (hs : u.same v) : u = v := by
  obtain ⟨L, _, hk⟩ := ledger_of_history h
  exact (hu.hasAt hk).has.lists.eq_of_same (hv.hasAt hk).has.lists hs

/-- A value with the identity that is next is the same as none that was there before. -/
theorem same_eq_false_of_existed (hv : v.identity? = some m.fresh) (hw : Existed m w) :
    v.same w = false := by
  obtain ⟨s, known, t, h, hp, ht⟩ := hw
  obtain ⟨L, _, hk⟩ := ledger_of_history h
  refine Value.same_eq_false hv fun j hj => ?_
  exact Nat.lt_of_lt_of_le ((hp.hasAt hk).below w w.mem_surface_self j hj) ht.fresh_le

end Session

end DynamicLisp
