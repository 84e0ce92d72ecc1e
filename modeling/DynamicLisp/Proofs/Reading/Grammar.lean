import Mathlib
import DynamicLisp.Reading

/-! The grammar of forms. `Spells` says which tokens spell which form, without reading them one
after the other. Main statement: reading takes the tokens of a form from the front, if there is one
there, and there is never a choice. -/
namespace DynamicLisp

namespace Reading

/-- The tokens `c` spell the form `f`: an atom alone, forms between parentheses, or such a list
behind a quote mark, which puts the symbol `list` in front. -/
inductive Spells : List Token → Value → Prop where
  | atom {t : Token} {f : Value} (ht : t.role = .atom) (hf : Value.ofToken t = .ok f) :
      Spells [t] f
  | list {parts : List (List Token × Value)} (h : ∀ p ∈ parts, Spells p.1 p.2) :
      Spells ("(" :: parts.flatMap (·.1) ++ [")"]) (.list .reader (parts.map (·.2)))
  | quoted {parts : List (List Token × Value)} (h : ∀ p ∈ parts, Spells p.1 p.2) :
      Spells ("'" :: "(" :: parts.flatMap (·.1) ++ [")"])
        (.list .reader (quoteHead :: parts.map (·.2)))

variable {opened : List (List Value)} {items : List Value} {t : Token} {c d ts r : List Token}
  {f : Value} {parts : List (List Token × Value)}

theorem Spells.ne_nil (h : Spells c f) : c ≠ [] := by
  cases h <;> simp

/-! ### One token at a time -/

/-- What is left to do when a form is complete inside the lists in `opened`. -/
def resume : (opened : List (List Value)) → Value → List Token → Reading
  | [], f, ts => ⟨.ok f, ts⟩
  | items :: opened, f, ts => read ((f :: items) :: opened) ts

theorem read_opening (opened : List (List Value)) (ts : List Token) :
    read opened ("(" :: ts) = read ([] :: opened) ts := by
  rw [read.eq_def opened]
  cases opened <;> rfl

theorem read_quote (opened : List (List Value)) (ts : List Token) :
    read opened ("'" :: "(" :: ts) = read ([quoteHead] :: opened) ts := by
  rw [read.eq_def opened]
  cases opened <;> rfl

theorem read_closing (items : List Value) (opened : List (List Value)) (ts : List Token) :
    read (items :: opened) (")" :: ts) = resume opened (.list .reader items.reverse) ts := by
  rw [read.eq_def (items :: opened)]
  cases opened <;> rfl

theorem read_atom (opened : List (List Value)) (ts : List Token) (ht : t.role = .atom)
    (hf : Value.ofToken t = .ok f) : read opened (t :: ts) = resume opened f ts := by
  rw [read.eq_def opened]
  cases opened <;> simp only [ht, hf, resume]

/-! ### Every form that is spelled is read -/

private theorem read_row
    (h : ∀ p ∈ parts, ∀ opened ts, read opened (p.1 ++ ts) = resume opened p.2 ts)
    (items : List Value) (opened : List (List Value)) (ts : List Token) :
    read (items :: opened) (parts.flatMap (·.1) ++ ts) =
      read (((parts.map (·.2)).reverse ++ items) :: opened) ts := by
  induction parts generalizing items with
  | nil => rfl
  | cons p parts ih =>
    have hp := h p (.head _) (items :: opened) (parts.flatMap (·.1) ++ ts)
    have hparts := ih (fun q hq => h q (.tail _ hq)) (p.2 :: items)
    rw [List.flatMap_cons, List.append_assoc, hp, resume, hparts]
    simp

/-- The tokens of a form are used up by it alone, whatever is open and whatever follows. -/
theorem Spells.read_append (h : Spells c f) (opened : List (List Value)) (ts : List Token) :
    read opened (c ++ ts) = resume opened f ts := by
  induction h generalizing opened ts with
  | atom ht hf => exact read_atom opened ts ht hf
  | list _ ih =>
    rw [List.cons_append, List.cons_append, read_opening, List.append_assoc, read_row ih]
    simp [read_closing]
  | quoted _ ih =>
    rw [List.cons_append, List.cons_append, List.cons_append, List.cons_append, read_quote,
      List.append_assoc, read_row ih]
    simp [read_closing]

/-! ### Every form that is read is spelled -/

/-- The tokens that open a list, and the elements that it has then. -/
private inductive Opens : List Token → List Value → Prop where
  | paren : Opens ["("] []
  | quote : Opens ["'", "("] [quoteHead]

private theorem Opens.spells {start : List Value} (ho : Opens c start)
    (h : ∀ p ∈ parts, Spells p.1 p.2) :
    Spells (c ++ parts.flatMap (·.1) ++ [")"]) (.list .reader (start ++ parts.map (·.2))) := by
  cases ho with
  | paren => exact .list h
  | quote => exact .quoted h

/-- The tokens `c` have led to the open lists: each was opened, then the elements were spelled that
it has so far. -/
private inductive Pending : List (List Value) → List Token → Prop where
  | nil : Pending [] []
  | cons {opened : List (List Value)} {start : List Value} {b c : List Token}
      {parts : List (List Token × Value)} (h : Pending opened b) (ho : Opens c start)
      (hp : ∀ p ∈ parts, Spells p.1 p.2) :
      Pending ((start ++ parts.map (·.2)).reverse :: opened) (b ++ (c ++ parts.flatMap (·.1)))

private theorem Pending.opening {start : List Value} (h : Pending opened c) (ho : Opens d start) :
    Pending (start.reverse :: opened) (c ++ d) := by
  have hn : ∀ p ∈ ([] : List (List Token × Value)), Spells p.1 p.2 :=
    fun p hp => (List.not_mem_nil hp).elim
  simpa using h.cons ho hn

private theorem Pending.add (h : Pending (items :: opened) c) (hd : Spells d f) :
    Pending ((f :: items) :: opened) (c ++ d) := by
  cases h with
  | cons h ho hp =>
    rename_i parts
    have hq : ∀ p ∈ parts ++ [(d, f)], Spells p.1 p.2 := by
      intro p hm
      rcases List.mem_append.mp hm with hm | hm
      · exact hp p hm
      · rw [List.mem_singleton.mp hm]
        exact hd
    simpa [List.append_assoc] using h.cons ho hq

private theorem Pending.close (h : Pending (items :: opened) c) :
    ∃ b d, c = b ++ d ∧ Pending opened b ∧ Spells (d ++ [")"]) (.list .reader items.reverse) := by
  cases h with
  | cons h ho hp =>
    refine ⟨_, _, rfl, h, ?_⟩
    rw [List.reverse_reverse]
    exact ho.spells hp

private theorem Pending.spells_of_read (hc : Pending opened c)
    (h : read opened ts = ⟨.ok f, r⟩) : ∃ d, ts = d ++ r ∧ Spells (c ++ d) f := by
  -- what has been taken off the tokens so far is `c`, and the open lists account for all of it
  fun_induction read opened ts generalizing c with
  | case3 opened t ts ht ih =>
    obtain rfl : t = "(" := by simpa [ht] using t.text_of_role
    obtain ⟨d, rfl, hd⟩ := ih (hc.opening .paren) h
    exact ⟨"(" :: d, rfl, by simpa using hd⟩
  | case5 opened t ht u us hu ih =>
    obtain rfl : t = "'" := by simpa [ht] using t.text_of_role
    obtain rfl : u = "(" := by simpa [hu] using u.text_of_role
    obtain ⟨d, rfl, hd⟩ := ih (hc.opening .quote) h
    exact ⟨"'" :: "(" :: d, rfl, by simpa using hd⟩
  | case8 t ts ht items =>
    obtain rfl : t = ")" := by simpa [ht] using t.text_of_role
    obtain ⟨rfl, rfl⟩ : Value.list .reader items.reverse = f ∧ ts = r := by simpa using h
    obtain ⟨b, d, rfl, hb, hd⟩ := hc.close
    cases hb
    exact ⟨[")"], rfl, by simpa using hd⟩
  | case9 t ts ht items outer opened ih =>
    obtain rfl : t = ")" := by simpa [ht] using t.text_of_role
    obtain ⟨b, d, rfl, hb, hd⟩ := hc.close
    obtain ⟨e, rfl, he⟩ := ih (hb.add hd) h
    exact ⟨")" :: e, rfl, by simpa using he⟩
  | case11 t ts ht v hv =>
    obtain ⟨rfl, rfl⟩ : v = f ∧ ts = r := by simpa using h
    cases hc
    exact ⟨[t], rfl, .atom ht hv⟩
  | case12 t ts ht v items opened hv ih =>
    obtain ⟨d, rfl, hd⟩ := ih (hc.add (.atom ht hv)) h
    exact ⟨t :: d, rfl, by simpa using hd⟩
  | _ => simp at h

/-- Reading gives a form and leaves `r` exactly if the form is spelled in front of `r`. -/
theorem ofTokens_eq_ok_iff : ofTokens ts = ⟨.ok f, r⟩ ↔ ∃ c, ts = c ++ r ∧ Spells c f := by
  constructor
  · intro h
    exact Pending.nil.spells_of_read h
  · rintro ⟨c, rfl, hc⟩
    exact hc.read_append [] r

/-- No tokens spell two forms, and no spelling goes on into another. -/
theorem Spells.unique {c' r' : List Token} {f' : Value} (h : Spells c f) (h' : Spells c' f')
    (he : c ++ r = c' ++ r') : c = c' ∧ f = f' := by
  have hr : ofTokens (c ++ r) = ⟨.ok f, r⟩ := ofTokens_eq_ok_iff.mpr ⟨c, rfl, h⟩
  have hr' : ofTokens (c ++ r) = ⟨.ok f', r'⟩ := ofTokens_eq_ok_iff.mpr ⟨c', he, h'⟩
  rw [hr] at hr'
  obtain ⟨rfl, rfl⟩ : f = f' ∧ r = r' := by simpa using hr'
  exact ⟨List.append_cancel_right he, rfl⟩

end Reading

/-! ### Form after form -/

namespace Script
open Reading

/-- The course of reading form after form until the tokens are used up or one cannot be read. Only
finite courses count. -/
inductive Reads : List Token → Script → Prop where
  | done : Reads [] ⟨[], none⟩
  | defect {t : Token} {ts r : List Token} {h : Halt}
      (hr : Reading.ofTokens (t :: ts) = ⟨.error h, r⟩) : Reads (t :: ts) ⟨[], some h⟩
  | form {t : Token} {ts r : List Token} {f : Value} {s : Script}
      (hr : Reading.ofTokens (t :: ts) = ⟨.ok f, r⟩) (hs : Reads r s) :
      Reads (t :: ts) ⟨f :: s.forms, s.defect⟩

variable {t : Token} {ts r : List Token} {f : Value} {s : Script}

theorem ofTokens_of_form (h : Reading.ofTokens (t :: ts) = ⟨.ok f, r⟩) :
    ofTokens (t :: ts) = ⟨f :: (ofTokens r).forms, (ofTokens r).defect⟩ := by
  rw [ofTokens]
  simp only [h]

theorem ofTokens_of_defect {h : Halt} (hr : Reading.ofTokens (t :: ts) = ⟨.error h, r⟩) :
    ofTokens (t :: ts) = ⟨[], some h⟩ := by
  rw [ofTokens]
  simp only [hr]

/-- Reading form after form always comes to an end, and to one end only. -/
theorem reads_iff : Reads ts s ↔ s = ofTokens ts := by
  constructor
  · intro h
    induction h with
    | done => rw [ofTokens]
    | defect hr => rw [ofTokens_of_defect hr]
    | form hr _ ih => rw [ofTokens_of_form hr, ih]
  · rintro rfl
    -- each form leaves fewer tokens than there were
    induction ts using ofTokens.induct with
    | case1 =>
      rw [ofTokens]
      exact .done
    | case2 t ts h he =>
      have hr : Reading.ofTokens (t :: ts) = ⟨.error h, (Reading.ofTokens (t :: ts)).rest⟩ := by
        rw [← he]
      rw [ofTokens_of_defect hr]
      exact .defect hr
    | case3 t ts f he ih =>
      have hr : Reading.ofTokens (t :: ts) = ⟨.ok f, (Reading.ofTokens (t :: ts)).rest⟩ := by
        rw [← he]
      rw [ofTokens_of_form hr]
      exact .form hr ih

/-- A script without a defect consists of the forms that the tokens spell one after the other. -/
theorem ofTokens_eq_iff {fs : List Value} : ofTokens ts = ⟨fs, none⟩ ↔
    ∃ parts : List (List Token × Value), (∀ p ∈ parts, Spells p.1 p.2) ∧
      ts = parts.flatMap (·.1) ∧ fs = parts.map (·.2) := by
  constructor
  · intro h
    have hr : Reads ts ⟨fs, none⟩ := reads_iff.mpr h.symm
    generalize hs : (⟨fs, none⟩ : Script) = s at hr
    induction hr generalizing fs with
    | done =>
      cases hs
      exact ⟨[], fun p hp => (List.not_mem_nil hp).elim, rfl, rfl⟩
    | defect => cases hs
    | @form t ts r f s hr hreads ih =>
      obtain ⟨rest, d⟩ := s
      obtain ⟨rfl, rfl⟩ : fs = f :: rest ∧ none = d := by simpa using hs
      obtain ⟨c, hc, hcf⟩ := ofTokens_eq_ok_iff.mp hr
      obtain ⟨parts, hparts, rfl, rfl⟩ := ih (reads_iff.mp hreads).symm rfl
      refine ⟨(c, f) :: parts, List.forall_mem_cons.mpr ⟨hcf, hparts⟩, ?_, rfl⟩
      rw [hc, List.flatMap_cons]
  · rintro ⟨parts, hparts, rfl, rfl⟩
    refine (reads_iff.mp ?_).symm
    induction parts with
    | nil => exact .done
    | cons p parts ih =>
      obtain ⟨hp, hparts⟩ := List.forall_mem_cons.mp hparts
      obtain ⟨t, ts, he⟩ := List.exists_cons_of_ne_nil hp.ne_nil
      have hr : Reading.ofTokens (p.1 ++ parts.flatMap (·.1)) = ⟨.ok p.2, parts.flatMap (·.1)⟩ :=
        ofTokens_eq_ok_iff.mpr ⟨p.1, rfl, hp⟩
      rw [List.flatMap_cons, List.map_cons]
      rw [he, List.cons_append] at hr ⊢
      exact .form hr (ih hparts)

/-- Where some tokens can be read to their end, reading goes on with those that follow. -/
theorem ofTokens_append {us : List Token} (h : (ofTokens ts).defect = none) :
    ofTokens (ts ++ us) = ⟨(ofTokens ts).forms ++ (ofTokens us).forms, (ofTokens us).defect⟩ := by
  obtain ⟨parts, hparts, hts, hfs⟩ := ofTokens_eq_iff.mp (congrArg (Script.mk _) h)
  rw [hfs, hts]
  clear h hts hfs
  induction parts with
  | nil => rfl
  | cons p parts ih =>
    obtain ⟨hp, hparts⟩ := List.forall_mem_cons.mp hparts
    obtain ⟨t, rest, he⟩ := List.exists_cons_of_ne_nil hp.ne_nil
    have hr : Reading.ofTokens (p.1 ++ (parts.flatMap (·.1) ++ us)) =
        ⟨.ok p.2, parts.flatMap (·.1) ++ us⟩ := ofTokens_eq_ok_iff.mpr ⟨p.1, rfl, hp⟩
    rw [List.flatMap_cons, List.map_cons, List.append_assoc]
    rw [he, List.cons_append] at hr ⊢
    rw [ofTokens_of_form hr, ih hparts]
    rfl

end Script

namespace Reading

/-- What is read is what is spelled: reading takes the tokens of a form off the front, whatever
follows them, if a form is spelled there; these tokens and the form are the only ones, and there is
at least one token. Reading form after form ends for all tokens, and without a defect just when the
tokens are spellings of forms one after the other. -/
theorem spells_exactly :
    (∀ ts f r, ofTokens ts = ⟨.ok f, r⟩ ↔ ∃ c, ts = c ++ r ∧ Spells c f) ∧
    (∀ c f, Spells c f → c ≠ []) ∧
    (∀ c c' f f' r r', Spells c f → Spells c' f' → c ++ r = c' ++ r' → c = c' ∧ f = f') ∧
    (∀ ts s, Script.Reads ts s ↔ s = Script.ofTokens ts) ∧
    ∀ ts fs, Script.ofTokens ts = ⟨fs, none⟩ ↔
      ∃ parts : List (List Token × Value), (∀ p ∈ parts, Spells p.1 p.2) ∧
        ts = parts.flatMap (·.1) ∧ fs = parts.map (·.2) := by
  refine ⟨fun ts f r => ofTokens_eq_ok_iff, fun c f h => h.ne_nil, ?_, ?_, ?_⟩
  · intro c c' f f' r r' h h' he
    exact h.unique h' he
  · exact fun ts s => Script.reads_iff
  · exact fun ts fs => Script.ofTokens_eq_iff

/-! A list call with a list inside, and a further form behind it. -/

abbrev nested : Value :=
  .list 0 [.symbol 0 "list", .symbol 0 "f", .list 0 [.int (-7), .list 0 []]]

theorem spells_exactly_nested :
    ofTokens ["'", "(", "f", "(", "-7", "(", ")", ")", ")", "x"] = ⟨.ok nested, ["x"]⟩ ∧
      Spells ["'", "(", "f", "(", "-7", "(", ")", ")", ")"] nested := by
  have hr : ofTokens ["'", "(", "f", "(", "-7", "(", ")", ")", ")", "x"] = ⟨.ok nested, ["x"]⟩ := by
    cbv
  obtain ⟨c, hc, hs⟩ := (spells_exactly.1 _ _ _).mp hr
  have he : ["'", "(", "f", "(", "-7", "(", ")", ")", ")"] ++ ["x"] = c ++ ["x"] := hc
  rw [List.append_cancel_right he]
  exact ⟨hr, hs⟩

end Reading

end DynamicLisp
