import DynamicLisp.Proofs.Eval.Holding
import DynamicLisp.Proofs.Value.Parts

/-! Evaluation without definitions. Main statement: a form without definitions gives a value that is
no greater than the form, and whatever its evaluation comes to evaluate is smaller, also where
`begin` evaluates a list that has been computed. -/
namespace DynamicLisp

namespace Value
variable {i : Identity} {vs : List Value} {v a d : Value}

/-- Nothing inside the value is a symbol or a lambda. -/
def IsPlain (v : Value) : Prop :=
  ∀ w ∈ v.parts, w.isSymbol = false ∧ w.arity? = none

/-- Nothing inside the value is a definition or a lambda. -/
def IsTame (v : Value) : Prop :=
  ∀ w ∈ v.parts, (∀ i j items, w ≠ .list i (.symbol j "define" :: items)) ∧ w.arity? = none

theorem isPlain_list : (list i vs).IsPlain ↔ ∀ v ∈ vs, v.IsPlain :=
  forall_parts_list.trans (and_iff_right ⟨rfl, rfl⟩)

theorem isPlain_pair : (pair i a d).IsPlain ↔ a.IsPlain ∧ d.IsPlain :=
  forall_parts_pair.trans (and_iff_right ⟨rfl, rfl⟩)

theorem isTame_pair : (pair i a d).IsTame ↔ a.IsTame ∧ d.IsTame :=
  forall_parts_pair.trans (and_iff_right ⟨fun _ _ _ h => (nomatch h), rfl⟩)

theorem isTame_list : (list i vs).IsTame ↔
    (∀ j items, vs ≠ .symbol j "define" :: items) ∧ ∀ v ∈ vs, v.IsTame := by
  refine forall_parts_list.trans (and_congr_left fun _ => ⟨fun h j items he => ?_, fun h => ?_⟩)
  · exact h.1 i j items (he ▸ rfl)
  · exact ⟨fun _ j items he => h j items (list.inj he).2, rfl⟩

/-- Data that has been computed holds no symbols, so taken as a form it defines nothing. -/
theorem IsPlain.isTame (h : v.IsPlain) : v.IsTame := by
  induction v using structural with
  | list i vs ih =>
    have hvs := isPlain_list.mp h
    refine isTame_list.mpr ⟨?_, fun v hv => ih v hv (hvs v hv)⟩
    rintro j items rfl
    cases (hvs _ (.head _) _ (.head _)).1
  | pair i a d iha ihd =>
    obtain ⟨ha, hd⟩ := isPlain_pair.mp h
    exact isTame_pair.mpr ⟨iha ha, ihd hd⟩
  | lambda i name params body => cases (h _ (.head _)).2
  | _ => exact forall_parts_of_eq rfl ⟨by simp, rfl⟩

/-- A tame form that evaluates to itself is plain. -/
theorem IsTame.isPlain (h : v.IsTame) (hv : v.isSelfEvaluating) : v.IsPlain := by
  cases v with
  | symbol i x => cases hv
  | list i items => cases hv
  | pair i a d => cases hv
  | lambda i name params body => cases (h _ (.head _)).2
  | _ => exact forall_parts_of_eq rfl ⟨rfl, rfl⟩

theorem IsTame.ofHead?_ne {head : Value} (h : (list i (head :: vs)).IsTame) :
    Eval.Special.ofHead? head ≠ some .define := by
  cases head with
  | symbol j x =>
    intro hs
    simp only [Eval.Special.ofHead?] at hs
    split at hs
    · next hx => exact (isTame_list.mp h).1 j vs (hx ▸ rfl)
    · split at hs <;> cases hs
  | _ => exact fun hs => nomatch hs

theorem sizes_append (vs ws : List Value) : sizes (vs ++ ws) = sizes vs + sizes ws := by
  induction vs with
  | nil => simp [sizes]
  | cons v vs ih => simp only [List.cons_append, sizes, ih]; omega

end Value

/-! ### Calls -/

namespace Primitive
variable {fresh : Identity} {args vs : List Value} {v : Value}

private theorem sizes_concat (h : concat args = .ok vs) :
    Value.sizes vs ≤ Value.sizes args := by
  induction args generalizing vs with
  | nil =>
    cases h
    exact Nat.le_refl _
  | cons a args ih =>
    obtain ⟨items, hi, h⟩ := bind_eq_ok h
    obtain ⟨ws, hw, h⟩ := bind_eq_ok h
    cases h
    have hws := ih hw
    cases a with
    | list i xs =>
      cases hi
      simp only [Value.sizes_append, Value.sizes, Value.size]
      omega
    | _ => cases hi

/-- A primitive makes plain values of plain operands, and adds no more than one value to them. -/
theorem size_of_compute {p : Primitive} (hargs : ∀ a ∈ args, a.IsPlain)
    (h : p.compute fresh args = .ok v) : v.IsPlain ∧ v.size ≤ Value.sizes args + 1 := by
  cases yields_of_compute h with
  | truth b => exact ⟨Value.forall_parts_of_eq rfl ⟨rfl, rfl⟩, Nat.le_add_left 1 _⟩
  | number hn => exact ⟨Value.forall_parts_of_eq rfl ⟨rfl, rfl⟩, Nat.le_add_left 1 _⟩
  | joined ha =>
    subst ha
    refine ⟨Value.isPlain_pair.mpr ⟨hargs _ (.head _), hargs _ (.tail _ (.head _))⟩, ?_⟩
    simp only [Value.sizes, Value.size]
    omega
  | firstHalf ha =>
    subst ha
    refine ⟨(Value.isPlain_pair.mp (hargs _ (.head _))).1, ?_⟩
    simp only [Value.sizes, Value.size]
    omega
  | secondHalf ha =>
    subst ha
    refine ⟨(Value.isPlain_pair.mp (hargs _ (.head _))).2, ?_⟩
    simp only [Value.sizes, Value.size]
    omega
  | head ha =>
    subst ha
    refine ⟨Value.isPlain_list.mp (hargs _ (.head _)) _ (.head _), ?_⟩
    simp only [Value.sizes, Value.size]
    omega
  | tail ha =>
    subst ha
    have hitems := Value.isPlain_list.mp (hargs _ (.head _))
    refine ⟨Value.isPlain_list.mpr fun w hw => hitems w (.tail _ hw), ?_⟩
    simp only [Value.sizes, Value.size]
    omega
  | collected => exact ⟨Value.isPlain_list.mpr hargs, by simp only [Value.size, Nat.le_refl]⟩
  | concatenated hvs =>
    refine ⟨Value.isPlain_list.mpr fun w hw => ?_, ?_⟩
    · obtain ⟨i, items, hi, hm⟩ := mem_of_concat hvs hw
      exact Value.isPlain_list.mp (hargs _ hi) w hm
    · have := sizes_concat hvs
      simp only [Value.size]
      omega

end Primitive

namespace Callee
variable {vs args : List Value} {fn : Value} {callee : Callee}

/-- What is finally called is no lambda, and its arguments are no greater than those given. -/
theorem plain_of_resolve (hf : fn.IsPlain) (hargs : ∀ a ∈ args, a.IsPlain)
    (h : resolve fn args = .ok (callee, vs)) :
    (∀ name params body, callee ≠ .lambda name params body) ∧ (∀ v ∈ vs, v.IsPlain) ∧
      Value.sizes vs ≤ Value.sizes args := by
  obtain ⟨⟨g, hg, hc⟩, hvs⟩ := of_resolve (fun _ _ => Value.isPlain_list.mp) hf hargs h
  refine ⟨?_, hvs⟩
  rintro name params body rfl
  cases g with
  | lambda i name' params' body' => cases (hg _ (.head _)).2
  | native f => cases f <;> cases hc
  | _ => cases hc

end Callee

/-! ### Computations -/

namespace Eval
variable {α β : Type} {Q : α → Prop} {R : β → Prop}

/-- Plain values of size one, such as the catalog binds. -/
def IsAtom (v : Value) : Prop :=
  v.IsPlain ∧ v.size = 1

/-- A computation that, where atoms are bound, leaves the scope as it is and gives values as `Q`
says. -/
def Keeps (Q : α → Prop) (x : Eval α) : Prop :=
  ∀ m : Machine, m.env.Holds IsAtom →
    (x.run m).2.env = m.env ∧ ∀ a, (x.run m).1 = .ok a → Q a

theorem keeps_pure {a : α} (ha : Q a) : Keeps Q (pure a) := by
  intro m _
  refine ⟨rfl, fun b hb => ?_⟩
  cases hb
  exact ha

theorem keeps_throw (e : Halt) : Keeps Q (throw e) :=
  fun _ _ => ⟨rfl, fun _ ha => nomatch ha⟩

theorem keeps_fail (f : Fault) : Keeps Q (fail f) :=
  keeps_throw (.fault f)

theorem keeps_ofHalt {r : Except Halt α} (hr : ∀ a, r = .ok a → Q a) : Keeps Q (ofHalt r) := by
  cases r with
  | error e => exact keeps_throw e
  | ok a => exact keeps_pure (hr a rfl)

theorem keeps_bind {x : Eval α} {f : α → Eval β} (hx : Keeps Q x)
    (hf : ∀ a, Q a → Keeps R (f a)) : Keeps R (x >>= f) := by
  intro m hm
  have hr := hx m hm
  rw [run_bind]
  generalize x.run m = r at hr ⊢
  obtain ⟨r, m₁⟩ := r
  cases r with
  | error e => exact ⟨hr.1, fun b hb => nomatch hb⟩
  | ok a =>
    have he : m₁.env = m.env := hr.1
    obtain ⟨henv, hq⟩ := hf a (hr.2 a rfl) m₁ (he ▸ hm)
    exact ⟨henv.trans he, hq⟩

theorem keeps_newIdentity : Keeps (fun _ => True) newIdentity :=
  fun _ _ => ⟨rfl, fun _ _ => trivial⟩

theorem keeps_lookup (name : String) : Keeps IsAtom (lookup name) := by
  intro m hm
  rw [run_lookup]
  refine ⟨rfl, fun v hv => ?_⟩
  cases hl : m.env.lookup? name with
  | none => simp [hl] at hv
  | some w =>
    simp only [hl, Option.elim_some, Except.ok.injEq] at hv
    exact hv ▸ hm.of_lookup? hl

theorem Keeps.mono {Q' : α → Prop} {x : Eval α} (hx : Keeps Q x) (h : ∀ a, Q a → Q' a) :
    Keeps Q' x :=
  fun m hm => ⟨(hx m hm).1, fun a ha => h a ((hx m hm).2 a ha)⟩

/-! ### Evaluation -/

section Forms
variable {ev : Value → Eval Value} {n : Nat}

/-- Plain values of no more than `n` parts. -/
def Within (n : Nat) (v : Value) : Prop :=
  v.IsPlain ∧ v.size ≤ n

/-- An evaluation that gives for tame forms plain values that are no greater. -/
def Shrinks (ev : Value → Eval Value) : Prop :=
  ∀ f : Value, f.IsTame → Keeps (Within f.size) (ev f)

theorem keeps_each (hev : Shrinks ev) {forms : List Value} (hf : ∀ f ∈ forms, f.IsTame) :
    Keeps (fun vs => (∀ v ∈ vs, v.IsPlain) ∧ Value.sizes vs ≤ Value.sizes forms)
      (each ev forms) := by
  induction forms with
  | nil => exact keeps_pure ⟨fun v hv => (List.not_mem_nil hv).elim, Nat.le_refl _⟩
  | cons form forms ih =>
    obtain ⟨hform, hforms⟩ := List.forall_mem_cons.mp hf
    refine keeps_bind (hev form hform) fun v hv => ?_
    refine keeps_bind (ih hforms) fun vs hvs => keeps_pure ?_
    exact ⟨List.forall_mem_cons.mpr ⟨hv.1, hvs.1⟩, Nat.add_le_add hv.2 hvs.2⟩

theorem keeps_inOrder (hev : Shrinks ev) {last : Value} {forms : List Value} (hl : last.IsPlain)
    (hf : ∀ f ∈ forms, f.IsTame) :
    Keeps (Within (last.size + Value.sizes forms)) (inOrder ev last forms) := by
  induction forms generalizing last with
  | nil => exact keeps_pure ⟨hl, Nat.le_add_right _ _⟩
  | cons form forms ih =>
    obtain ⟨hform, hforms⟩ := List.forall_mem_cons.mp hf
    refine keeps_bind (hev form hform) fun v hv => (ih hv.1 hforms).mono fun w hw => ?_
    have hsize := hw.2
    have := hv.2
    refine ⟨hw.1, ?_⟩
    simp only [Value.sizes]
    omega

theorem keeps_call (hev : Shrinks ev) {callee : Callee} {args : List Value}
    (hc : ∀ name params body, callee ≠ .lambda name params body)
    (hargs : ∀ a ∈ args, a.IsTame) (hp : callee ≠ .begin → ∀ a ∈ args, a.IsPlain) :
    Keeps (Within (Value.sizes args + 1)) (call ev callee args) := by
  cases callee with
  | lambda name params body => exact (hc name params body rfl).elim
  | primitive p =>
    refine keeps_bind keeps_newIdentity fun fresh _ => keeps_ofHalt fun v hv => ?_
    exact Primitive.size_of_compute (hp (fun h => nomatch h)) hv
  | begin =>
    cases args with
    | nil => exact keeps_fail _
    | cons form forms =>
      have hn : Value.nil.IsPlain := Value.forall_parts_of_eq rfl ⟨rfl, rfl⟩
      refine (keeps_inOrder hev hn hargs).mono fun v hv => ⟨hv.1, ?_⟩
      have := hv.2
      simp only [Value.size] at this
      omega

private theorem within_mono {n k : Nat} {v : Value} (h : Within n v) (hk : n ≤ k) : Within k v :=
  ⟨h.1, Nat.le_trans h.2 hk⟩

private theorem keeps_applyWith (hev : Shrinks ev) {fn : Value} {args : List Value}
    (hf : fn.IsPlain) (hargs : ∀ a ∈ args, a.IsPlain) :
    Keeps (Within (Value.sizes args + 1)) (applyWith ev fn args) := by
  refine keeps_bind (keeps_ofHalt fun ca hca => Callee.plain_of_resolve hf hargs hca) ?_
  rintro ⟨callee, vs⟩ ⟨hc, hvs, hle⟩
  have hcall := keeps_call hev hc (fun a ha => (hvs a ha).isTame) fun _ => hvs
  exact hcall.mono fun v hv => within_mono hv (Nat.succ_le_succ hle)

private theorem keeps_applyWith_begin (hev : Shrinks ev) {forms : List Value}
    (hf : ∀ f ∈ forms, f.IsTame) :
    Keeps (Within (Value.sizes forms + 1)) (applyWith ev (.native .begin) forms) := by
  rw [applyWith, Callee.resolve_begin]
  exact keeps_call hev (by simp) hf fun h => (h rfl).elim

private theorem keeps_callForm (hev : Shrinks ev) {head : Value} {operands : List Value}
    (hhead : head.IsTame) (hoperands : ∀ f ∈ operands, f.IsTame) :
    Keeps (Within (Value.sizes operands + 1)) (callForm ev head operands) := by
  refine keeps_bind (hev head hhead) fun fn hfn => ?_
  split
  · cases ht : fn.takesForms with
    | true =>
      rw [Discipline.Scoping.eq_begin_of_takesForms ht]
      exact keeps_applyWith_begin hev hoperands
    | false =>
      rw [arguments, ht]
      refine keeps_bind (keeps_each hev hoperands) fun vs hvs => ?_
      exact (keeps_applyWith hev hfn.1 hvs.1).mono fun v hv =>
        within_mono hv (Nat.succ_le_succ hvs.2)
  · exact keeps_bind (keeps_ofHalt fun _ _ => trivial) fun text _ => keeps_fail _

private theorem keeps_choiceForm (hev : Shrinks ev) {operands : List Value}
    (hoperands : ∀ f ∈ operands, f.IsTame) :
    Keeps (Within (Value.sizes operands + 1)) (choiceForm ev operands) := by
  have hitem : ∀ f ∈ operands, Keeps (Within (Value.sizes operands + 1)) (ev f) := fun f hf =>
    (hev f (hoperands f hf)).mono fun v hv =>
      within_mono hv (Nat.le_succ_of_le (Value.size_le_sizes hf))
  have hnil : Within (Value.sizes operands + 1) .nil :=
    ⟨Value.forall_parts_of_eq rfl ⟨rfl, rfl⟩, Nat.le_add_left 1 _⟩
  fun_cases choiceForm ev operands with
  | case1 condition consequent alternatives =>
    refine keeps_bind (hitem condition (.head _)) fun c _ => ?_
    split
    · exact hitem consequent (.tail _ (.head _))
    · split
      · exact keeps_pure hnil
      · exact hitem _ (.tail _ (.tail _ (.head _)))
      · exact keeps_fail _
    · exact keeps_fail _
  | case2 => exact keeps_fail _

/-- One step gives no greater values if the evaluation of other forms does not. -/
theorem shrinks_step (hev : Shrinks ev) : Shrinks (step ev) := by
  intro f hf
  fun_cases step ev f with
  | case1 i x =>
    exact (keeps_lookup x).mono fun v hv =>
      ⟨hv.1, Nat.le_trans (Nat.le_of_eq hv.2) (Value.size_pos _)⟩
  | case2 => exact keeps_fail _
  | case3 i head operands hs => exact (hf.ofHead?_ne hs).elim
  | case4 i head operands hs =>
    obtain ⟨_, hoperands⟩ := List.forall_mem_cons.mp (Value.isTame_list.mp hf).2
    refine (keeps_choiceForm hev hoperands).mono fun v hv => within_mono hv ?_
    simp only [Value.size, Value.sizes]
    omega
  | case5 i head operands hs =>
    obtain ⟨hhead, hoperands⟩ := List.forall_mem_cons.mp (Value.isTame_list.mp hf).2
    refine (keeps_callForm hev hhead hoperands).mono fun v hv => within_mono hv ?_
    simp only [Value.size, Value.sizes]
    omega
  | case6 i a d =>
    exact keeps_bind (keeps_ofHalt fun _ _ => trivial) fun text _ => keeps_fail _
  | case7 =>
    refine keeps_pure ⟨hf.isPlain ?_, Nat.le_refl _⟩
    cases f with
    | list i items => cases items <;> simp_all
    | _ => simp_all [Value.isSelfEvaluating]

theorem shrinks_evaluate (depth : Nat) : Shrinks (evaluate depth) := by
  induction depth with
  | zero => exact fun _ _ => keeps_throw .nesting
  | succ depth ih => exact shrinks_step ih

/-! ### Evaluations within an evaluation -/

variable {m m' : Machine} {f : Value}

private theorem Keeps.of_run {x : Eval α} (hx : Keeps Q x) (hm : m.env.Holds IsAtom) {a : α}
    (h : x.run m = (.ok a, m')) : Q a ∧ m'.env = m.env := by
  have hr := hx m hm
  rw [h] at hr
  exact ⟨hr.2 a rfl, hr.1⟩

private theorem env_of_reaches (hev : Shrinks ev) {forms : List Value}
    (hforms : ∀ g ∈ forms, g.IsTame) (hm : m.env.Holds IsAtom) (h : Reaches ev forms m f m') :
    f ∈ forms ∧ m'.env = m.env := by
  induction h with
  | here => exact ⟨.head _, rfl⟩
  | later hg _ ih =>
    obtain ⟨hhead, hforms⟩ := List.forall_mem_cons.mp hforms
    have he := ((hev _ hhead).of_run hm hg).2
    obtain ⟨hmem, henv⟩ := ih hforms (he ▸ hm)
    exact ⟨.tail _ hmem, henv.trans he⟩

private theorem tame_of_calls (hev : Shrinks ev) {head : Value} {operands args : List Value}
    {callee : Callee} (hhead : head.IsTame) (hoperands : ∀ g ∈ operands, g.IsTame)
    (hm : m.env.Holds IsAtom) (h : Calls ev head operands m callee args m') :
    (∀ name params body, callee ≠ .lambda name params body) ∧ (∀ a ∈ args, a.IsTame) ∧
      Value.sizes args ≤ Value.sizes operands ∧ m'.env = m.env := by
  obtain ⟨fn, vs, m₁, hh, _, ha, hc⟩ := h
  obtain ⟨hfn, he⟩ := (hev head hhead).of_run hm hh
  cases ht : fn.takesForms with
  | true =>
    obtain rfl := Discipline.Scoping.eq_begin_of_takesForms ht
    rw [arguments, ht] at ha
    cases ha
    rw [Callee.resolve_begin] at hc
    cases hc
    exact ⟨by simp, hoperands, Nat.le_refl _, he⟩
  | false =>
    rw [arguments, ht] at ha
    obtain ⟨⟨hvs, hle⟩, he'⟩ := (keeps_each hev hoperands).of_run (he ▸ hm) ha
    obtain ⟨hcallee, hargs, hle'⟩ := Callee.plain_of_resolve hfn.1 hvs hc
    exact ⟨hcallee, fun a h => (hargs a h).isTame, Nat.le_trans hle' hle, he'.trans he⟩

private theorem item_of_list {i : Identity} {items : List Value} {g : Value}
    (hform : (Value.list i items).IsTame) (hg : g ∈ items) :
    g.IsTame ∧ g.size < (Value.list i items).size := by
  refine ⟨(Value.isTame_list.mp hform).2 g hg, ?_⟩
  rw [Value.size]
  exact Nat.lt_succ_of_le (Value.size_le_sizes hg)

/-- Whatever a step on a tame form comes to evaluate is tame and smaller than the form. -/
theorem size_lt_of_enters (hev : Shrinks ev) {form : Value} (hform : form.IsTame)
    (hm : m.env.Holds IsAtom) (h : Enters ev form m f m') :
    f.IsTame ∧ f.size < form.size ∧ m'.env = m.env := by
  cases h with
  | value hs => exact (hform.ofHead?_ne hs).elim
  | condition =>
    obtain ⟨ht, hlt⟩ := item_of_list hform (.tail _ (.head _))
    exact ⟨ht, hlt, rfl⟩
  | consequent _ hc =>
    obtain ⟨ht, hlt⟩ := item_of_list hform (.tail _ (.tail _ (.head _)))
    have hcond := (item_of_list hform (.tail _ (.head _))).1
    exact ⟨ht, hlt, ((hev _ hcond).of_run hm hc).2⟩
  | alternative _ hc =>
    obtain ⟨ht, hlt⟩ := item_of_list hform (.tail _ (.tail _ (.tail _ (.head _))))
    have hcond := (item_of_list hform (.tail _ (.head _))).1
    exact ⟨ht, hlt, ((hev _ hcond).of_run hm hc).2⟩
  | operator =>
    obtain ⟨ht, hlt⟩ := item_of_list hform (.head _)
    exact ⟨ht, hlt, rfl⟩
  | operand _ hh _ _ h =>
    have hhead := (item_of_list hform (.head _)).1
    have he := ((hev _ hhead).of_run hm hh).2
    have hoperands := fun g hg => (item_of_list (g := g) hform (.tail _ hg)).1
    obtain ⟨hmem, he'⟩ := env_of_reaches hev hoperands (he ▸ hm) h
    obtain ⟨ht, hlt⟩ := item_of_list hform (.tail _ hmem)
    exact ⟨ht, hlt, he'.trans he⟩
  | body _ hc _ h =>
    obtain ⟨hhead, hoperands⟩ := List.forall_mem_cons.mp (Value.isTame_list.mp hform).2
    exact ((tame_of_calls hev hhead hoperands hm hc).1 _ _ _ rfl).elim
  | sequence _ hc h =>
    -- the forms may be computed lists, which are no greater than the operands all together
    obtain ⟨hhead, hoperands⟩ := List.forall_mem_cons.mp (Value.isTame_list.mp hform).2
    obtain ⟨_, hforms, hle, he⟩ := tame_of_calls hev hhead hoperands hm hc
    obtain ⟨hmem, he'⟩ := env_of_reaches hev hforms (he ▸ hm) h
    have hsize := Value.size_le_sizes hmem
    refine ⟨hforms _ hmem, ?_, he'.trans he⟩
    simp only [Value.size, Value.sizes]
    omega

end Forms

/-! ### Nesting -/

/-- The evaluation of a form, with the bound `depth`, comes to a moment at which `k` evaluations are
inside one another. -/
inductive Nests : Nat → Value → Machine → Nat → Prop where
  | here {depth : Nat} {form : Value} {m : Machine} : Nests depth form m 1
  | within {depth k : Nat} {form f : Value} {m m' : Machine}
      (hf : Enters (evaluate depth) form m f m') (h : Nests depth f m' k) :
      Nests (depth + 1) form m (k + 1)

/-- The nesting of evaluations stays within the size of a tame form. -/
theorem le_size_of_nests {depth k : Nat} {form : Value} {m : Machine} (hform : form.IsTame)
    (hm : m.env.Holds IsAtom) (h : Nests depth form m k) : k ≤ form.size := by
  induction h with
  | here => exact Value.size_pos _
  | within hf _ ih =>
    obtain ⟨ht, hlt, he⟩ := size_lt_of_enters (shrinks_evaluate _) hform hm hf
    exact Nat.succ_le_of_lt (Nat.lt_of_le_of_lt (ih ht (he ▸ hm)) hlt)

end Eval

end DynamicLisp
