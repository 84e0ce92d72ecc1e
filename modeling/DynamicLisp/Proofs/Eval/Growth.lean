import DynamicLisp.Environment.Basic

/-! Growth of scopes. Whatever a computation defines goes into the innermost frame: names there keep
their places, new names come last, and closing the scope gives back what was around it. -/
namespace DynamicLisp

namespace Frame

/-- The frame after several definitions, made from left to right. -/
def defineAll (f : Frame) (bs : List (String × Value)) : Frame :=
  bs.foldl (fun f b => f.define b.1 b.2) f

theorem defineAll_cons (f : Frame) (b : String × Value) (bs : List (String × Value)) :
    f.defineAll (b :: bs) = (f.define b.1 b.2).defineAll bs := rfl

theorem defineAll_append (f : Frame) (bs cs : List (String × Value)) :
    f.defineAll (bs ++ cs) = (f.defineAll bs).defineAll cs :=
  List.foldl_append

theorem prefix_names_define (f : Frame) (name : String) (v : Value) :
    f.names <+: (f.define name v).names := by
  rw [names_define]
  split
  · exact List.prefix_rfl
  · exact List.prefix_append _ _

/-- Definitions leave the names of a frame where they are and add new ones behind them. -/
theorem prefix_names_defineAll (f : Frame) (bs : List (String × Value)) :
    f.names <+: (f.defineAll bs).names := by
  induction bs generalizing f with
  | nil => exact List.prefix_rfl
  | cons b bs ih => exact (prefix_names_define f b.1 b.2).trans (ih _)

/-- A name that is not defined keeps its value. -/
theorem lookup?_defineAll_of_forall_ne {f : Frame} {name : String} {bs : List (String × Value)}
    (h : ∀ b ∈ bs, b.1 ≠ name) : (f.defineAll bs).lookup? name = f.lookup? name := by
  induction bs generalizing f with
  | nil => rfl
  | cons b bs ih =>
    rw [defineAll_cons, ih fun c hc => h c (.tail b hc), lookup?_define]
    exact if_neg (h b (.head bs)).symm

private theorem mem_put {name : String} {v : Value} {b : String × Value}
    {bs : List (String × Value)} (h : b ∈ put name v bs) : b ∈ bs ∨ b = (name, v) := by
  induction bs with
  | nil => exact .inr (List.mem_singleton.mp h)
  | cons c bs ih =>
    simp only [put] at h
    split at h
    · exact (List.mem_cons.mp h).elim .inr fun h => .inl (.tail c h)
    · rcases List.mem_cons.mp h with rfl | h
      · exact .inl (.head bs)
      · exact (ih h).imp_left (.tail c)

/-- A definition brings in no binding but its own. -/
theorem mem_entries_define {f : Frame} {name : String} {v : Value} {b : String × Value}
    (h : b ∈ (f.define name v).entries) : b ∈ f.entries ∨ b = (name, v) :=
  mem_put h

theorem mem_entries_defineAll {f : Frame} {b : String × Value} {bs : List (String × Value)}
    (h : b ∈ (f.defineAll bs).entries) : b ∈ f.entries ∨ b ∈ bs := by
  induction bs generalizing f with
  | nil => exact .inl h
  | cons c bs ih =>
    rcases ih h with h | h
    · refine (mem_entries_define h).imp_right fun he => ?_
      rw [he]
      exact .head bs
    · exact .inr (.tail c h)

/-- The scope of a call binds each parameter to its argument; of those with one name, the last. -/
theorem lookup?_ofParameters {params : List String} {args : List Value} {n : Nat} {name : String}
    {v : Value} (hp : params[n]? = some name) (ha : args[n]? = some v)
    (hlast : name ∉ params.drop (n + 1)) : (ofParameters params args).lookup? name = some v := by
  suffices h : ∀ f : Frame, (f.defineAll (params.zip args)).lookup? name = some v from h empty
  intro f
  induction params generalizing args n f with
  | nil => cases hp
  | cons param params ih =>
    cases args with
    | nil => cases ha
    | cons arg args =>
      rw [List.zip_cons_cons, defineAll_cons]
      cases n with
      | zero =>
        obtain rfl : param = name := Option.some.inj hp
        obtain rfl : arg = v := Option.some.inj ha
        rw [lookup?_defineAll_of_forall_ne, lookup?_define, if_pos rfl]
        rintro b hb rfl
        exact hlast (List.of_mem_zip hb).1
      | succ n => exact ih hp ha hlast _

/-- The scope of a call binds nothing but arguments. -/
theorem mem_args_of_mem_ofParameters {params : List String} {args : List Value}
    {b : String × Value} (h : b ∈ (ofParameters params args).entries) : b.2 ∈ args :=
  (mem_entries_defineAll (f := empty) h).elim (fun h => nomatch h) fun h => (List.of_mem_zip h).2

theorem mem_entries_of_lookup? {f : Frame} {name : String} {v : Value}
    (h : f.lookup? name = some v) : (name, v) ∈ f.entries := by
  obtain ⟨before, after, he, _⟩ := List.lookup_eq_some_iff.mp h
  rw [he]
  exact List.mem_append_right before (.head after)

end Frame

namespace Environment

/-- `e.Grows p e'`: definitions of names with `p`, all of them in the innermost frame, lead from `e`
to `e'`. -/
structure Grows (p : String → Prop) (e e' : Environment) : Prop where
  outer : e'.outer = e.outer
  inner : ∃ bs, (∀ b ∈ bs, p b.1) ∧ e'.inner = e.inner.defineAll bs

namespace Grows
variable {p q : String → Prop} {e e' e'' : Environment}

theorem refl (p : String → Prop) (e : Environment) : e.Grows p e :=
  ⟨rfl, [], fun _ h => (List.not_mem_nil h).elim, rfl⟩

theorem trans (h : e.Grows p e') (k : e'.Grows p e'') : e.Grows p e'' := by
  obtain ⟨bs, hb, hi⟩ := h.inner
  obtain ⟨cs, hc, hj⟩ := k.inner
  refine ⟨k.outer.trans h.outer, bs ++ cs, ?_, by rw [hj, hi, Frame.defineAll_append]⟩
  exact fun b h => (List.mem_append.mp h).elim (hb b) (hc b)

theorem mono (h : e.Grows p e') (hpq : ∀ name, p name → q name) : e.Grows q e' := by
  obtain ⟨bs, hb, hi⟩ := h.inner
  exact ⟨h.outer, bs, fun b hm => hpq b.1 (hb b hm), hi⟩

theorem define (e : Environment) {name : String} (v : Value) (h : p name) :
    e.Grows p (e.define name v) :=
  ⟨rfl, [(name, v)], fun b hb => by rw [List.mem_singleton.mp hb]; exact h, rfl⟩

/-- Closing a scope that has grown gives back the environment in which it was opened. -/
theorem pop {f : Frame} (h : (e.push f).Grows p e') : e'.pop = e := by
  obtain ⟨inner, outer⟩ := e'
  have ho : outer = e.inner :: e.outer := h.outer
  subst ho
  rfl

theorem prefix_names (h : e.Grows p e') : e.inner.names <+: e'.inner.names := by
  obtain ⟨bs, _, hi⟩ := h.inner
  rw [hi]
  exact Frame.prefix_names_defineAll e.inner bs

/-- Only names with `p` can have got another value. -/
theorem lookup?_inner (h : e.Grows p e') {name : String} (hn : ¬ p name) :
    e'.inner.lookup? name = e.inner.lookup? name := by
  obtain ⟨bs, hb, hi⟩ := h.inner
  rw [hi]
  exact Frame.lookup?_defineAll_of_forall_ne fun b hm he => hn (he ▸ hb b hm)

theorem lookup?_eq (h : e.Grows p e') {name : String} (hn : ¬ p name) :
    e'.lookup? name = e.lookup? name := by
  rw [lookup?, lookup?, frames, frames, List.findSome?_cons, List.findSome?_cons,
    h.lookup?_inner hn, h.outer]

/-- Where no name may be defined, nothing changes. -/
theorem eq_of_forall_not (h : e.Grows p e') (hp : ∀ name, ¬ p name) : e' = e := by
  obtain ⟨bs, hb, hi⟩ := h.inner
  obtain ⟨inner, outer⟩ := e'
  cases bs with
  | nil =>
    have ho : outer = e.outer := h.outer
    have hin : inner = e.inner := hi
    rw [ho, hin]
  | cons b bs => exact (hp b.1 (hb b (.head bs))).elim

end Grows

end Environment

end DynamicLisp
