import Mathlib
import DynamicLisp.Proofs.Reading.Refusals
import DynamicLisp.Proofs.Reading.Grammar

/-! Reading as a flat scan. Three places in the tokens decide how the reading of a form ends: where
as many lists are closed as opened, the first quote mark without a list, and the first numeral that
is too long. No nesting has to be followed to find them. -/
namespace DynamicLisp

/-- The least index with a property, infinite if no index has it. -/
noncomputable def leastIndex (p : Nat → Prop) : ℕ∞ :=
  ⨅ i : Nat, ⨅ _ : p i, (i : ℕ∞)

namespace leastIndex
variable {p q : Nat → Prop}

theorem eq_top (h : ∀ i, ¬ p i) : leastIndex p = ⊤ := by
  simp [leastIndex, h]

theorem eq_zero (h : p 0) : leastIndex p = 0 := by
  have hle : leastIndex p ≤ ((0 : Nat) : ℕ∞) := iInf₂_le 0 h
  simpa using hle

theorem le_of_mem {i : Nat} (h : p i) : leastIndex p ≤ i :=
  iInf₂_le i h

theorem eq_top_or_exists (p : Nat → Prop) : leastIndex p = ⊤ ∨ ∃ i, p i ∧ leastIndex p = i := by
  classical
  by_cases h : ∃ i, p i
  · refine .inr ⟨Nat.find h, Nat.find_spec h, le_antisymm (le_of_mem (Nat.find_spec h)) ?_⟩
    refine le_iInf₂ fun i hi => ?_
    exact_mod_cast Nat.find_min' h hi
  · exact .inl (eq_top fun i hi => h ⟨i, hi⟩)

/-- One more element in front moves the least index by one. -/
theorem eq_add_one (h0 : ¬ p 0) (h : ∀ i, p (i + 1) ↔ q i) : leastIndex p = leastIndex q + 1 := by
  refine le_antisymm ?_ (le_iInf₂ fun i hi => ?_)
  · rcases eq_top_or_exists q with hq | ⟨i, hi, hq⟩
    · simp [hq]
    · rw [hq]
      exact_mod_cast le_of_mem ((h i).mpr hi)
  · cases i with
    | zero => exact (h0 hi).elim
    | succ i =>
      have hle : leastIndex q ≤ i := le_of_mem ((h i).mp hi)
      rw [Nat.cast_add, Nat.cast_one]
      exact add_le_add_left hle 1

end leastIndex

namespace Reading

/-! ### The three places -/

/-- After `m` of the tokens, the last of them no quote mark, as many lists have been closed as there
were open, `d` before the first token. -/
def Balanced (d : Nat) (ts : List Token) (m : Nat) : Prop :=
  1 ≤ m ∧ m ≤ ts.length ∧ d + (ts.take m).count "(" = (ts.take m).count ")" ∧
    ts[m - 1]? ≠ some "'"

/-- How many tokens there are up to the first balance. -/
noncomputable def balance (d : Nat) (ts : List Token) : ℕ∞ :=
  leastIndex (Balanced d ts)

/-- The place of the first quote mark that no list follows. -/
noncomputable def bareMark (ts : List Token) : ℕ∞ :=
  leastIndex fun j => ts[j]? = some "'" ∧ ts[j + 1]? ≠ some "("

/-- The place of the first numeral of more digits than are read. -/
noncomputable def longNumeral (ts : List Token) : ℕ∞ :=
  leastIndex fun k => ∃ t n, ts[k]? = some t ∧ t.IsNumeral n ∧ Text.Numeral.maxDigits < n

variable {d e : Nat} {t : Token} {ts : List Token}

theorem balance_nil (d : Nat) : balance d [] = ⊤ := by
  refine leastIndex.eq_top fun m h => ?_
  obtain ⟨h1, hm, _⟩ := h
  rw [List.length_nil] at hm
  omega

theorem bareMark_nil : bareMark [] = ⊤ :=
  leastIndex.eq_top fun j h => by simp at h

theorem longNumeral_nil : longNumeral [] = ⊤ :=
  leastIndex.eq_top fun k h => by simp at h

private theorem balanced_cons {m : Nat} (h : d + [t].count "(" = e + [t].count ")") (hm : 1 ≤ m) :
    Balanced d (t :: ts) (m + 1) ↔ Balanced e ts m := by
  obtain ⟨m, rfl⟩ := Nat.exists_eq_add_of_le' hm
  unfold Balanced
  simp only [List.take_succ_cons, List.length_cons, Nat.add_sub_cancel, List.getElem?_cons_succ,
    Nat.add_le_add_iff_right]
  rw [List.count_cons, List.count_cons]
  simp only [List.count_cons, List.count_nil, Nat.zero_add] at h
  constructor
  · rintro ⟨_, hl, hb, hq⟩
    exact ⟨by omega, hl, by omega, hq⟩
  · rintro ⟨_, hl, hb, hq⟩
    exact ⟨by omega, hl, by omega, hq⟩

theorem balance_cons (h : d + [t].count "(" = e + [t].count ")") (h0 : e = 0 → t = "'") :
    balance d (t :: ts) = balance e ts + 1 := by
  refine leastIndex.eq_add_one (fun hb => absurd hb.1 (by omega)) fun m => ?_
  rcases Nat.eq_zero_or_pos m with rfl | hm
  · constructor
    · rintro ⟨_, _, hb, hq⟩
      rw [List.take_succ_cons, List.take_zero] at hb
      rw [h0 (by omega)] at hq
      exact (hq rfl).elim
    · exact fun hb => absurd hb.1 (by omega)
  · exact balanced_cons h hm

/-- With a list left open there is no balance yet. -/
theorem balance_cons_succ (h : d + [t].count "(" = e + 1 + [t].count ")") :
    balance d (t :: ts) = balance (e + 1) ts + 1 :=
  balance_cons h fun he => absurd he (Nat.succ_ne_zero e)

private theorem balance_eq_add_one (d : Nat) (ts : List Token) :
    balance d ts = leastIndex (fun m => Balanced d ts (m + 1)) + 1 :=
  leastIndex.eq_add_one (fun hb => absurd hb.1 (by omega)) fun _ => Iff.rfl

theorem balance_pos (d : Nat) (ts : List Token) : 0 < balance d ts := by
  rw [balance_eq_add_one]
  exact add_pos_of_right one_pos _

theorem balance_eq_one (h : d + [t].count "(" = [t].count ")") (ht : t ≠ "'") :
    balance d (t :: ts) = 1 := by
  have hz : Balanced d (t :: ts) (0 + 1) := by
    refine ⟨Nat.le_refl 1, by simp, ?_, by simpa using ht⟩
    rw [List.take_succ_cons, List.take_zero]
    exact h
  rw [balance_eq_add_one, leastIndex.eq_zero hz, zero_add]

theorem bareMark_cons (h : t = "'" → ts.head? = some "(") :
    bareMark (t :: ts) = bareMark ts + 1 := by
  refine leastIndex.eq_add_one ?_ fun j => by simp
  rintro ⟨hm, hl⟩
  simp only [List.getElem?_cons_zero, Option.some.injEq] at hm
  rw [List.getElem?_cons_succ, ← List.head?_eq_getElem?] at hl
  exact hl (h hm)

theorem bareMark_eq_zero (h : ts.head? ≠ some "(") : bareMark ("'" :: ts) = 0 := by
  refine leastIndex.eq_zero ⟨rfl, ?_⟩
  rw [List.getElem?_cons_succ, ← List.head?_eq_getElem?]
  exact h

theorem longNumeral_cons (h : ∀ n, t.IsNumeral n → n ≤ Text.Numeral.maxDigits) :
    longNumeral (t :: ts) = longNumeral ts + 1 := by
  refine leastIndex.eq_add_one ?_ fun k => by simp
  rintro ⟨u, n, hu, hn, hl⟩
  simp only [List.getElem?_cons_zero, Option.some.injEq] at hu
  subst hu
  exact absurd (h n hn) (by omega)

theorem longNumeral_eq_zero {n : Nat} (h : t.IsNumeral n) (hl : Text.Numeral.maxDigits < n) :
    longNumeral (t :: ts) = 0 :=
  leastIndex.eq_zero ⟨t, n, rfl, h, hl⟩

/-! ### What follows from the places -/

/-- How a reading of the tokens ends if `m`, `j` and `k` are the three places in them: the first
balance, the first bare quote mark and the first numeral that is too long. -/
structure Verdict (m j k : ℕ∞) (ts : List Token) (r : Reading) : Prop where
  bareMark (i : Nat) : j = i → j < m → j < k →
    r = ⟨.error (.fault .quoteWithoutList), ts.drop (i + 2)⟩
  longNumeral (i : Nat) : k = i → k < m → k < j →
    ∃ t n, ts[i]? = some t ∧ t.IsNumeral n ∧ r = ⟨.error (.longNumeral n), ts.drop (i + 1)⟩
  complete (i : Nat) : ¬ j < m → ¬ k < m → m = i → ∃ f, r = ⟨.ok f, ts.drop i⟩
  incomplete : ¬ j < m → ¬ k < m → m = ⊤ → r = ⟨.error (.fault .missingCloseParen), []⟩

namespace Verdict
variable {m j k : ℕ∞} {r : Reading}

private theorem eq_of_add_one_eq {a : ℕ∞} {i : Nat} (h : a + 1 = i) :
    ∃ n : Nat, i = n + 1 ∧ a = n := by
  cases a with
  | top => simp at h
  | coe a =>
    refine ⟨a, ?_, rfl⟩
    exact_mod_cast h.symm

private theorem add_one_lt_iff {a b : ℕ∞} : a + 1 < b + 1 ↔ a < b :=
  ENat.add_lt_add_iff_right ENat.one_ne_top

/-- One more token in front moves the places by one and changes nothing else. -/
theorem cons (h : Verdict m j k ts r) (t : Token) :
    Verdict (m + 1) (j + 1) (k + 1) (t :: ts) r where
  bareMark i hi hm hk := by
    obtain ⟨n, rfl, rfl⟩ := eq_of_add_one_eq hi
    exact h.bareMark n rfl (add_one_lt_iff.mp hm) (add_one_lt_iff.mp hk)
  longNumeral i hi hm hj := by
    obtain ⟨n, rfl, rfl⟩ := eq_of_add_one_eq hi
    exact h.longNumeral n rfl (add_one_lt_iff.mp hm) (add_one_lt_iff.mp hj)
  complete i hj hk hi := by
    obtain ⟨n, rfl, rfl⟩ := eq_of_add_one_eq hi
    rw [add_one_lt_iff] at hj hk
    exact h.complete n hj hk rfl
  incomplete hj hk hi := by
    rw [add_one_lt_iff] at hj hk
    have hm : m = ⊤ := by simpa using hi
    exact h.incomplete hj hk hm

theorem of_bareMark (hm : 0 < m) (ts : List Token) :
    Verdict m 0 k ts ⟨.error (.fault .quoteWithoutList), ts.drop 2⟩ where
  bareMark i hi _ _ := by
    obtain rfl : 0 = i := by exact_mod_cast hi
    rfl
  longNumeral i _ _ hj := absurd hj not_lt_zero
  complete i hj _ _ := absurd hm hj
  incomplete hj _ _ := absurd hm hj

theorem of_longNumeral {n : Nat} (hn : t.IsNumeral n) (hm : 0 < m) (ts : List Token) :
    Verdict m j 0 (t :: ts) ⟨.error (.longNumeral n), ts⟩ where
  bareMark i _ _ hk := absurd hk not_lt_zero
  longNumeral i hi _ _ := by
    obtain rfl : 0 = i := by exact_mod_cast hi
    exact ⟨t, n, rfl, hn, rfl⟩
  complete i _ hk _ := absurd hm hk
  incomplete _ hk _ := absurd hm hk

theorem of_complete (f : Value) (t : Token) (ts : List Token) :
    Verdict 1 (j + 1) (k + 1) (t :: ts) ⟨.ok f, ts⟩ where
  bareMark i _ hm _ := by simp at hm
  longNumeral i _ hm _ := by simp at hm
  complete i _ _ hi := by
    obtain rfl : 1 = i := by exact_mod_cast hi
    exact ⟨f, rfl⟩
  incomplete _ _ hm := absurd hm ENat.one_ne_top

theorem of_incomplete : Verdict ⊤ ⊤ ⊤ [] ⟨.error (.fault .missingCloseParen), []⟩ where
  bareMark i hi _ _ := absurd hi.symm (ENat.natCast_ne_top i)
  longNumeral i hi _ _ := absurd hi.symm (ENat.natCast_ne_top i)
  complete i _ _ hi := absurd hi.symm (ENat.natCast_ne_top i)
  incomplete _ _ _ := rfl

end Verdict

private theorem le_length_of_isNumeral {n : Nat} (h : t.IsNumeral n) : n ≤ t.toList.length := by
  obtain ⟨sign, digits, he, _, rfl, _⟩ := h
  rw [he, List.length_append]
  omega

theorem longNumeral_eq_top (h : ∀ t ∈ ts, t.toList.length ≤ Text.Numeral.maxDigits) :
    longNumeral ts = ⊤ := by
  refine leastIndex.eq_top fun k hk => ?_
  obtain ⟨t, n, ht, hn, hl⟩ := hk
  have hle := h t (List.mem_of_getElem? ht)
  have hlen := le_length_of_isNumeral hn
  omega

private theorem le_maxDigits_of_mark {n : Nat} (ht : t ∈ ["(", ")", "'"]) (h : t.IsNumeral n) :
    n ≤ Text.Numeral.maxDigits := by
  have hl : t.toList.length = 1 := by
    simp only [List.mem_cons, List.not_mem_nil, or_false] at ht
    rcases ht with rfl | rfl | rfl <;> rfl
  have hn := le_length_of_isNumeral h
  unfold Text.Numeral.maxDigits
  omega

private theorem le_maxDigits_of_ofToken {n : Nat} {v : Value} (hv : Value.ofToken t = .ok v)
    (h : t.IsNumeral n) : n ≤ Text.Numeral.maxDigits := by
  by_contra hl
  have he := Value.ofToken_eq_error_iff.mpr ⟨n, rfl, Nat.lt_of_not_le hl, h⟩
  rw [hv] at he
  cases he

/-- The places decide the reading also inside open lists, whose number the balance starts from. -/
theorem verdict_read (opened : List (List Value)) (ts : List Token)
    (h : opened = [] → ts ≠ [] ∧ ts.head? ≠ some ")") :
    Verdict (balance opened.length ts) (bareMark ts) (longNumeral ts) ts (read opened ts) := by
  fun_induction read opened ts with
  | case1 => exact absurd rfl (h rfl).1
  | case2 items opened =>
    rw [balance_nil, bareMark_nil, longNumeral_nil]
    exact .of_incomplete
  | case3 opened t ts ht ih =>
    obtain rfl : t = "(" := by simpa [ht] using t.text_of_role
    have hm : balance opened.length ("(" :: ts) = balance (opened.length + 1) ts + 1 :=
      balance_cons_succ rfl
    rw [hm, bareMark_cons (by simp), longNumeral_cons fun n => le_maxDigits_of_mark (by simp)]
    exact (ih fun ho => absurd ho (List.cons_ne_nil _ _)).cons "("
  | case4 opened t ht =>
    obtain rfl : t = "'" := by simpa [ht] using t.text_of_role
    rw [bareMark_eq_zero (by simp)]
    exact .of_bareMark (balance_pos _ _) ["'"]
  | case5 opened t ht u us hu ih =>
    obtain rfl : t = "'" := by simpa [ht] using t.text_of_role
    obtain rfl : u = "(" := by simpa [hu] using u.text_of_role
    have hm : balance opened.length ("'" :: "(" :: us) = balance opened.length ("(" :: us) + 1 :=
      balance_cons rfl fun _ => rfl
    have hm' : balance opened.length ("(" :: us) = balance (opened.length + 1) us + 1 :=
      balance_cons_succ rfl
    rw [hm, hm', bareMark_cons fun _ => rfl, bareMark_cons (by simp),
      longNumeral_cons fun n => le_maxDigits_of_mark (by simp),
      longNumeral_cons fun n => le_maxDigits_of_mark (by simp)]
    exact ((ih fun ho => absurd ho (List.cons_ne_nil _ _)).cons "(").cons "'"
  | case6 opened t ht u us hu =>
    obtain rfl : t = "'" := by simpa [ht] using t.text_of_role
    have hl : (u :: us).head? ≠ some "(" := by
      intro he
      obtain rfl : u = "(" := Option.some.inj he
      exact hu rfl
    rw [bareMark_eq_zero hl]
    exact .of_bareMark (balance_pos _ _) ("'" :: u :: us)
  | case7 t ts ht =>
    obtain rfl : t = ")" := by simpa [ht] using t.text_of_role
    exact absurd rfl (h rfl).2
  | case8 t ts ht items =>
    obtain rfl : t = ")" := by simpa [ht] using t.text_of_role
    have hm : balance [items].length (")" :: ts) = 1 := balance_eq_one rfl (by simp)
    rw [hm, bareMark_cons (by simp), longNumeral_cons fun n => le_maxDigits_of_mark (by simp)]
    exact .of_complete _ ")" ts
  | case9 t ts ht items outer opened ih =>
    obtain rfl : t = ")" := by simpa [ht] using t.text_of_role
    have hm : balance (items :: outer :: opened).length (")" :: ts) =
        balance (opened.length + 1) ts + 1 := balance_cons_succ rfl
    rw [hm, bareMark_cons (by simp), longNumeral_cons fun n => le_maxDigits_of_mark (by simp)]
    exact (ih fun ho => absurd ho (List.cons_ne_nil _ _)).cons ")"
  | case10 opened t ts ht e he =>
    obtain ⟨n, rfl, hl, hn⟩ := Value.ofToken_eq_error_iff.mp he
    rw [longNumeral_eq_zero hn hl]
    exact .of_longNumeral hn (balance_pos _ _) ts
  | case11 t ts ht v hv =>
    have hne : t ≠ "(" ∧ t ≠ ")" ∧ t ≠ "'" := by simpa [ht] using t.text_of_role
    have hm : balance 0 (t :: ts) = 1 := balance_eq_one (by simp [hne]) hne.2.2
    rw [List.length_nil, hm, bareMark_cons fun hq => absurd hq hne.2.2,
      longNumeral_cons fun n => le_maxDigits_of_ofToken hv]
    exact .of_complete v t ts
  | case12 t ts ht v items opened hv ih =>
    have hne : t ≠ "(" ∧ t ≠ ")" ∧ t ≠ "'" := by simpa [ht] using t.text_of_role
    have hm : balance (items :: opened).length (t :: ts) = balance (opened.length + 1) ts + 1 :=
      balance_cons_succ (by simp [hne])
    rw [hm, bareMark_cons fun hq => absurd hq hne.2.2,
      longNumeral_cons fun n => le_maxDigits_of_ofToken hv]
    exact (ih fun ho => absurd ho (List.cons_ne_nil _ _)).cons t

/-- How the reading of a form ends, told from the tokens alone. Without tokens there is no program,
and a closing parenthesis in front is refused and used up. In all other cases the three places
decide: of a bare quote mark and a numeral that is too long the first is reported, if it comes
before the balance, and what is left begins behind it; otherwise a form is read up to the balance,
or a parenthesis is missing and nothing is left. -/
theorem verdict_ofTokens (ts : List Token) :
    ((ofTokens ts).outcome = .error (.fault .emptyProgram) ↔ ts = []) ∧
    ((ofTokens ts).outcome = .error (.fault .unexpectedCloseParen) ↔ ts.head? = some ")") ∧
    (ts.head? = some ")" → (ofTokens ts).rest = ts.tail) ∧
    (ts ≠ [] → ts.head? ≠ some ")" →
      Verdict (balance 0 ts) (bareMark ts) (longNumeral ts) ts (ofTokens ts)) := by
  have hclosing : ts.head? = some ")" →
      ofTokens ts = ⟨.error (.fault .unexpectedCloseParen), ts.tail⟩ := by
    intro h
    obtain ⟨us, rfl⟩ := List.head?_eq_some_iff.mp h
    rw [ofTokens, read.eq_def]
    rfl
  refine ⟨⟨?_, ?_⟩, ⟨?_, ?_⟩, ?_, ?_⟩
  · intro h
    rcases defect_of_read h with hd | ⟨_, ⟨hts, _⟩ | ⟨_, he⟩⟩
    · cases hd
    · exact hts
    · cases he
  · rintro rfl
    rfl
  · intro h
    rcases defect_of_read h with hd | ⟨_, ⟨_, he⟩ | ⟨hts, _⟩⟩
    · cases hd
    · cases he
    · exact hts
  · intro h
    rw [hclosing h]
  · intro h
    rw [hclosing h]
  · intro hne hc
    exact verdict_read [] ts fun _ => ⟨hne, hc⟩

/-! Inside a list that is closed later, a quote mark has no list. -/

abbrev markInList : List Token :=
  ["(", "x", "'", "y", ")", "z"]

theorem verdict_ofTokens_markInList :
    balance 0 markInList = 5 ∧ bareMark markInList = 2 ∧ longNumeral markInList = ⊤ ∧
      ofTokens markInList = ⟨.error (.fault .quoteWithoutList), [")", "z"]⟩ := by
  have hm : balance 0 markInList = 5 := by
    have h5 : balance 1 [")", "z"] = 1 := balance_eq_one rfl (by decide)
    have h4 : balance 1 ["y", ")", "z"] = 2 := by rw [balance_cons rfl (by decide), h5]; rfl
    have h3 : balance 1 ["'", "y", ")", "z"] = 3 := by rw [balance_cons rfl (by decide), h4]; rfl
    have h2 : balance 1 ["x", "'", "y", ")", "z"] = 4 := by
      rw [balance_cons rfl (by decide), h3]; rfl
    rw [balance_cons rfl (by decide), h2]; rfl
  have hj : bareMark markInList = 2 := by
    rw [bareMark_cons (by decide), bareMark_cons (by decide), bareMark_eq_zero (by decide)]
    rfl
  have hk : longNumeral markInList = ⊤ := longNumeral_eq_top (by decide)
  have hv := (verdict_ofTokens markInList).2.2.2 (by decide) (by decide)
  rw [hm, hj, hk] at hv
  exact ⟨hm, hj, hk, hv.bareMark 2 rfl (by decide) (by decide)⟩

end Reading
end DynamicLisp
