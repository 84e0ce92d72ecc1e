import Mathlib.Logic.Function.Basic
import DynamicLisp.Proofs.Eval.Discipline
import DynamicLisp.Proofs.Value.Renaming

/-! Ledgers of identities. A ledger has one value for each identity that has been drawn. Values that
are found in a ledger, together with all that a program can take out of them, are the same only if
they are alike in every respect; and a ledger is continued with what primitives make. -/
namespace DynamicLisp

namespace Value
variable {u v : Value} {i : Identity} {items : List Value}

/-! ### What sameness looks at -/

/-- The value without its contents, if it has an identity. -/
def mark : Value → Value
  | symbol i _ => symbol i ""
  | text i _ => text i ""
  | list i _ => list i []
  | pair i _ _ => pair i nil nil
  | lambda i _ _ _ => lambda i "" [] []
  | v => v

theorem same_iff : u.same v ↔ u.mark = v.mark := by
  cases u <;> cases v <;> simp [same, mark]

theorem identity?_mark (v : Value) : v.mark.identity? = v.identity? := by
  cases v <;> rfl

theorem mark_eq_self (h : v.identity? = none) : v.mark = v := by
  cases v <;> first | rfl | cases h

theorem same_equivalence : Equivalence fun u v : Value => u.same v := by
  simp only [same_iff]
  exact eq_equivalence.comap mark

theorem identity?_eq_of_same (h : u.same v) : u.identity? = v.identity? := by
  rw [same_iff] at h
  rw [← identity?_mark u, h, identity?_mark]

/-- Without identities, values of the same content are the same, and no others. -/
theorem eq_of_same_of_identity?_eq_none (h : u.same v) (hu : u.identity? = none) : u = v := by
  have hv : v.identity? = none := (identity?_eq_of_same h).symm.trans hu
  rw [same_iff] at h
  rw [← mark_eq_self hu, h, mark_eq_self hv]

/-- A value is not the same as those that have only earlier identities. -/
theorem same_eq_false (hu : u.identity? = some i) (hv : ∀ j, v.identity? = some j → j < i) :
    u.same v = false := by
  refine Bool.eq_false_iff.mpr fun h => ?_
  exact Nat.lt_irrefl i (hv i ((identity?_eq_of_same h).symm.trans hu))

/-! ### Forms of texts -/

/-- The forms of a lambda, evaluated when it is called. -/
def body : Value → List Value
  | lambda _ _ _ body => body
  | _ => []

/-- A form as texts have it: nothing with an identity in it evaluates to itself. -/
def IsSource (v : Value) : Prop :=
  ∀ w ∈ v.surface, w.isSelfEvaluating → w.identity? = none

theorem isSource_list : (list i items).IsSource ↔ ∀ v ∈ items, v.IsSource :=
  forall_surface_list.trans (and_iff_right fun h => nomatch h)

end Value

/-- One value for each identity below the next one. -/
structure Ledger where
  next : Identity
  entry : Identity → Value

namespace Ledger
variable {L M N : Ledger} {u v w f : Value} {i k : Identity} {vs args : List Value}

/-- A value that is the entry for its identity, if it has one. Symbols are not listed, nor are
lambdas unless their forms come from a text. -/
structure Lists (L : Ledger) (v : Value) : Prop where
  not_symbol : v.isSymbol = false
  entered : ∀ i, v.identity? = some i → i < L.next ∧ L.entry i = v
  body : ∀ f ∈ v.body, f.IsSource

/-- A value that is listed, with everything that can be taken out of it. -/
def Has (L : Ledger) (v : Value) : Prop :=
  ∀ w ∈ v.surface, L.Lists w

theorem has_list : L.Has (.list i vs) ↔ L.Lists (.list i vs) ∧ ∀ v ∈ vs, L.Has v :=
  Value.forall_surface_list

theorem has_pair {a d : Value} :
    L.Has (.pair i a d) ↔ L.Lists (.pair i a d) ∧ L.Has a ∧ L.Has d :=
  Value.forall_surface_pair

theorem has_of_identity?_eq_none (h : v.identity? = none) : L.Has v := by
  cases v with
  | bool | int | nil | native =>
    exact List.forall_mem_singleton.mpr ⟨rfl, fun i hi => (nomatch hi), fun f hf => nomatch hf⟩
  | _ => cases h

theorem Has.lists (h : L.Has v) : L.Lists v :=
  h v v.mem_surface_self

theorem Has.of_mem_surface (h : L.Has v) (hw : w ∈ v.surface) : L.Has w :=
  fun u hu => h u (Value.surface_subset_of_mem hw hu)

/-- In one ledger, the same value has one content. -/
theorem Lists.eq_of_same (hu : L.Lists u) (hv : L.Lists v) (h : u.same v) : u = v := by
  cases hi : u.identity? with
  | none => exact Value.eq_of_same_of_identity?_eq_none h hi
  | some i =>
    have hj : v.identity? = some i := (Value.identity?_eq_of_same h).symm.trans hi
    rw [← (hu.entered i hi).2, (hv.entered i hj).2]

/-! ### Continuation -/

/-- `M` continues `L`: the entries of `L` stay. -/
structure Extends (L M : Ledger) : Prop where
  le : L.next ≤ M.next
  entry_eq : ∀ i < L.next, M.entry i = L.entry i

theorem Extends.refl (L : Ledger) : L.Extends L :=
  ⟨Nat.le_refl _, fun _ _ => rfl⟩

theorem Extends.trans (h : L.Extends M) (k : M.Extends N) : L.Extends N where
  le := Nat.le_trans h.le k.le
  entry_eq i hi := (k.entry_eq i (Nat.lt_of_lt_of_le hi h.le)).trans (h.entry_eq i hi)

theorem Lists.mono (hv : L.Lists v) (h : L.Extends M) : M.Lists v where
  not_symbol := hv.not_symbol
  body := hv.body
  entered i hi := by
    obtain ⟨hlt, he⟩ := hv.entered i hi
    exact ⟨Nat.lt_of_lt_of_le hlt h.le, (h.entry_eq i hlt).trans he⟩

theorem Has.mono (hv : L.Has v) (h : L.Extends M) : M.Has v :=
  fun w hw => (hv w hw).mono h

/-- The ledger with `v` entered under the next identity. -/
def add (L : Ledger) (v : Value) : Ledger :=
  ⟨L.next + 1, Function.update L.entry L.next v⟩

theorem extends_add (L : Ledger) (v : Value) : L.Extends (L.add v) where
  le := Nat.le_succ _
  entry_eq _ hi := Function.update_of_ne (Nat.ne_of_lt hi) _ _

theorem lists_add (hs : v.isSymbol = false) (hi : v.identity? = some L.next)
    (hb : ∀ f ∈ v.body, f.IsSource) : (L.add v).Lists v where
  not_symbol := hs
  body := hb
  entered i h := by
    obtain rfl : L.next = i := Option.some.inj (hi.symm.trans h)
    exact ⟨Nat.lt_succ_self _, Function.update_self _ _ _⟩

private theorem has_add_list (h : ∀ v ∈ vs, L.Has v) :
    (L.add (.list L.next vs)).Has (.list L.next vs) :=
  has_list.mpr ⟨lists_add rfl rfl fun _ hf => (nomatch hf),
    fun v hv => (h v hv).mono (extends_add _ _)⟩

/-- What a primitive makes of values in a ledger is in the ledger continued with it. -/
theorem has_of_compute {p : Primitive} (hargs : ∀ a ∈ args, L.Has a)
    (h : p.compute L.next args = .ok v) : (L.add v).Has v := by
  cases Primitive.yields_of_compute h with
  | truth b => exact has_of_identity?_eq_none rfl
  | number => exact has_of_identity?_eq_none rfl
  | joined ha =>
    subst ha
    exact has_pair.mpr ⟨lists_add rfl rfl fun _ hf => (nomatch hf),
      (hargs _ (.head _)).mono (extends_add _ _),
      (hargs _ (.tail _ (.head _))).mono (extends_add _ _)⟩
  | firstHalf ha =>
    subst ha
    exact (has_pair.mp (hargs _ (.head _))).2.1.mono (extends_add _ _)
  | secondHalf ha =>
    subst ha
    exact (has_pair.mp (hargs _ (.head _))).2.2.mono (extends_add _ _)
  | head ha =>
    subst ha
    exact ((has_list.mp (hargs _ (.head _))).2 _ (.head _)).mono (extends_add _ _)
  | tail ha =>
    subst ha
    exact has_add_list fun w hw => (has_list.mp (hargs _ (.head _))).2 w (.tail _ hw)
  | collected => exact has_add_list hargs
  | concatenated hvs =>
    refine has_add_list fun w hw => ?_
    obtain ⟨i, items, hi, hm⟩ := Primitive.mem_of_concat hvs hw
    exact (has_list.mp (hargs _ hi)).2 w hm

/-- A value in the ledger that has only identities below `k`. -/
structure HasAt (L : Ledger) (k : Identity) (v : Value) : Prop where
  has : L.Has v
  below : ∀ w ∈ v.surface, ∀ i, w.identity? = some i → i < k

theorem Has.hasAt (h : L.Has v) : L.HasAt L.next v :=
  ⟨h, fun w hw i hi => ((h w hw).entered i hi).1⟩

theorem HasAt.mono (hv : L.HasAt k v) (h : L.Extends M) : M.HasAt k v :=
  ⟨hv.has.mono h, hv.below⟩

/-! ### Forms -/

/-- What is evaluated: a form of a text, or a value in the ledger. -/
def Form (L : Ledger) (f : Value) : Prop :=
  f.IsSource ∨ L.Has f

theorem Form.mono (hf : L.Form f) (h : L.Extends M) : M.Form f :=
  hf.imp_right fun hf => hf.mono h

theorem Form.items (h : L.Form (.list i vs)) : ∀ f ∈ vs, L.Form f := by
  intro f hf
  rcases h with h | h
  · exact .inl (Value.isSource_list.mp h f hf)
  · exact .inr ((has_list.mp h).2 f hf)

/-- A value that evaluates to itself is in the ledger, since no text holds one with an identity. -/
theorem Form.has (h : L.Form f) (hf : f.isSelfEvaluating) : L.Has f := by
  rcases h with h | h
  · exact has_of_identity?_eq_none (h f f.mem_surface_self hf)
  · exact h

/-- A list that a special form heads comes from a text, since values are headed by no symbol. -/
theorem Form.isSource_of_ofHead? {head : Value} {s : Eval.Special}
    (h : L.Form (.list i (head :: vs))) (hs : Eval.Special.ofHead? head = some s) :
    ∀ f ∈ vs, f.IsSource := by
  rcases h with h | h
  · exact fun f hf => Value.isSource_list.mp h f (.tail _ hf)
  · have hn := ((has_list.mp h).2 head (.head _)).lists.not_symbol
    rw [Value.isSymbol_of_ofHead? hs] at hn
    cases hn

end Ledger

end DynamicLisp
