import DynamicLisp.Reading

/-! Forms as they are read. Reading makes integers in range, symbols and lists of forms, and nothing
else; so what holds of these by structure holds of every form of a text. -/
namespace DynamicLisp
variable {P : Value → Prop}

private theorem ofToken_induction (int : ∀ n, Value.inRange n → P (.int n))
    (symbol : ∀ name, P (.symbol .reader name)) {t : Token} {v : Value}
    (h : Value.ofToken t = .ok v) : P v := by
  simp only [Value.ofToken] at h
  split at h
  · cases h
    exact symbol t
  · next n _ =>
    split at h
    · cases h
    · split at h
      · next hn =>
        cases h
        exact int n.value hn
      · cases h
        exact symbol t

private theorem read_induction (int : ∀ n, Value.inRange n → P (.int n))
    (symbol : ∀ name, P (.symbol .reader name))
    (list : ∀ items, (∀ v ∈ items, P v) → P (.list .reader items))
    {opened : List (List Value)} {ts : List Token} {f : Value}
    (hopened : ∀ items ∈ opened, ∀ v ∈ items, P v)
    (h : (Reading.read opened ts).outcome = .ok f) : P f := by
  -- the lists still open hold forms already read, so they carry the invariant
  fun_induction Reading.read opened ts with
  | case3 opened t ts _ ih =>
    refine ih (List.forall_mem_cons.mpr ⟨?_, hopened⟩) h
    exact fun v hv => (List.not_mem_nil hv).elim
  | case5 opened t _ u us _ ih =>
    refine ih (List.forall_mem_cons.mpr ⟨?_, hopened⟩) h
    exact List.forall_mem_singleton.mpr (symbol "list")
  | case8 t ts _ items =>
    cases h
    exact list items.reverse fun v hv => hopened items (.head _) v (List.mem_reverse.mp hv)
  | case9 t ts _ items outer opened ih =>
    obtain ⟨hitems, hrest⟩ := List.forall_mem_cons.mp hopened
    obtain ⟨houter, hrest⟩ := List.forall_mem_cons.mp hrest
    have hv : P (.list .reader items.reverse) :=
      list items.reverse fun v hv => hitems v (List.mem_reverse.mp hv)
    exact ih (List.forall_mem_cons.mpr ⟨List.forall_mem_cons.mpr ⟨hv, houter⟩, hrest⟩) h
  | case11 t ts _ v hv =>
    cases h
    exact ofToken_induction int symbol hv
  | case12 t ts _ v items opened hv ih =>
    obtain ⟨hitems, hrest⟩ := List.forall_mem_cons.mp hopened
    have hp : P v := ofToken_induction int symbol hv
    exact ih (List.forall_mem_cons.mpr ⟨List.forall_mem_cons.mpr ⟨hp, hitems⟩, hrest⟩) h
  | _ => cases h

/-- What holds by structure holds of a form read from the front of some tokens. -/
theorem Reading.outcome_induction (int : ∀ n, Value.inRange n → P (.int n))
    (symbol : ∀ name, P (.symbol .reader name))
    (list : ∀ items, (∀ v ∈ items, P v) → P (.list .reader items)) {ts : List Token} {f : Value}
    (h : (ofTokens ts).outcome = .ok f) : P f :=
  read_induction int symbol list (fun _ hi => (List.not_mem_nil hi).elim) h

/-- What holds by structure holds of every form of a text. -/
theorem Script.forms_induction (int : ∀ n, Value.inRange n → P (.int n))
    (symbol : ∀ name, P (.symbol .reader name))
    (list : ∀ items, (∀ v ∈ items, P v) → P (.list .reader items)) (code : String) :
    ∀ f ∈ (ofText code).forms, P f := by
  unfold ofText
  generalize Token.ofText code = ts
  fun_induction ofTokens ts with
  | case1 => exact fun f hf => (List.not_mem_nil hf).elim
  | case2 => exact fun f hf => (List.not_mem_nil hf).elim
  | case3 t ts form hform tail ih =>
    exact List.forall_mem_cons.mpr ⟨Reading.outcome_induction int symbol list hform, ih⟩

end DynamicLisp
