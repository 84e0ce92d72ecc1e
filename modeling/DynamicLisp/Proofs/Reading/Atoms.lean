import Mathlib
import DynamicLisp.Proofs.Reading.Refusals
import DynamicLisp.Proofs.Value.Displayed

/-! Atoms. A token spells the integer that it denotes in decimal, if that is in range and not too
long to be read, and else the symbol of its own name. An integer denotes itself as it is written. -/
namespace DynamicLisp

namespace Text

/-- The number that a row of decimal digits denotes. -/
def decimal (digits : List Char) : Nat :=
  Nat.ofDigits 10 (digits.reverse.map fun c => c.toNat - 48)

theorem decimal_concat (digits : List Char) (c : Char) :
    decimal (digits ++ [c]) = 10 * decimal digits + (c.toNat - 48) := by
  simp [decimal, Nat.ofDigits_cons, Nat.add_comm]

theorem Numeral.magnitude_eq_decimal (digits : List Char) :
    magnitude (digits.map fun c => c.toNat - 48) = decimal digits := by
  induction digits using List.reverseRecOn with
  | nil => rfl
  | append_singleton digits c ih =>
    rw [decimal_concat, ← ih]
    simp [magnitude]

private theorem toNat_ofNat {d : Nat} (h : d < 10) : (Char.ofNat (48 + d)).toNat - 48 = d := by
  have hall : ∀ d < 10, (Char.ofNat (48 + d)).toNat - 48 = d := by decide
  exact hall d h

/-- A number is denoted by its digits as they are written. -/
theorem decimal_writeNat (n : Nat) : decimal (writeNat n) = n := by
  induction n using writeNat.induct with
  | case1 n h =>
    rw [writeNat, if_pos h, ← List.nil_append [_], decimal_concat, toNat_ofNat h]
    exact Nat.zero_add n
  | case2 n h ih =>
    rw [writeNat, if_neg h, decimal_concat, ih, toNat_ofNat (Nat.mod_lt n (by decide))]
    omega

theorem length_writeNat_le {n k : Nat} (h : n < 10 ^ (k + 1)) : (writeNat n).length ≤ k + 1 := by
  induction k generalizing n with
  | zero =>
    rw [writeNat, if_pos (by simpa using h)]
    exact Nat.le_refl 1
  | succ k ih =>
    rw [writeNat]
    split
    · exact Nat.le_add_left 1 (k + 1)
    · have hd : n / 10 < 10 ^ (k + 1) := Nat.div_lt_of_lt_mul (by rw [pow_succ] at h; omega)
      rw [List.length_append]
      exact Nat.add_le_add_right (ih hd) 1

end Text

namespace Token
open Text
variable {t : Token} {k : Nat} {n : Int}

/-- The token consists of `k` digits of ASCII, perhaps with a sign in front, and denotes `n`. -/
def Denotes (t : Token) (k : Nat) (n : Int) : Prop :=
  ∃ sign digits : List Char, t.toList = sign ++ digits ∧ sign ∈ [[], ['+'], ['-']] ∧
    digits ≠ [] ∧ (∀ c ∈ digits, c.isDigit) ∧ digits.length = k ∧
    n = if sign = ['-'] then -(decimal digits : Int) else decimal digits

theorem denotes_iff : t.Denotes k n ↔
    ∃ m, Numeral.ofPlain? t.toList = some m ∧ m.digits.length = k ∧ m.value = n := by
  have hv : ∀ (sign digits : List Char),
      Numeral.value ⟨decide (sign = ['-']), digits.map fun c => c.toNat - 48⟩ =
        if sign = ['-'] then -(decimal digits : Int) else decimal digits := by
    intro sign digits
    simp only [Numeral.value, Numeral.magnitude_eq_decimal, decide_eq_true_eq]
  constructor
  · rintro ⟨sign, digits, he, hs, hne, hd, hk, rfl⟩
    have hm := Numeral.ofPlain?_eq_some_iff.mpr ⟨sign, digits, he, hs, hne, hd, rfl⟩
    exact ⟨_, hm, by simpa, hv _ _⟩
  · rintro ⟨m, hm, hk, rfl⟩
    obtain ⟨sign, digits, he, hs, hne, hd, rfl⟩ := Numeral.ofPlain?_eq_some_iff.mp hm
    exact ⟨sign, digits, he, hs, hne, hd, by simpa using hk, hv _ _⟩

/-- A token denotes one integer at most. -/
theorem Denotes.unique {j : Nat} {m : Int} (h : t.Denotes k n) (h' : t.Denotes j m) :
    k = j ∧ n = m := by
  obtain ⟨a, ha, rfl, rfl⟩ := denotes_iff.mp h
  obtain ⟨b, hb, rfl, rfl⟩ := denotes_iff.mp h'
  rw [ha] at hb
  cases hb
  exact ⟨rfl, rfl⟩

theorem denotes_writeInt (n : Int) : Denotes (writeInt n) (writeNat n.natAbs).length n := by
  have hd := isDigit_of_mem_writeNat (n := n.natAbs)
  have hn : n < 0 ∨ 0 ≤ n := by omega
  rcases hn with hn | hn
  · refine ⟨['-'], writeNat n.natAbs, ?_, by simp, writeNat_ne_nil _, hd, rfl, ?_⟩
    · simp [writeInt, hn]
    · rw [if_pos rfl, decimal_writeNat]
      omega
  · refine ⟨[], writeNat n.natAbs, ?_, by simp, writeNat_ne_nil _, hd, rfl, ?_⟩
    · simp [writeInt, Int.not_lt.mpr hn]
    · rw [if_neg (by simp), decimal_writeNat]
      omega

theorem isNumeral_replicate {c : Char} (h : c.isDigit) (k : Nat) :
    IsNumeral (String.ofList (List.replicate k c)) k := by
  refine ⟨[], List.replicate k c, String.toList_ofList, by simp, List.length_replicate, ?_⟩
  intro d hd
  rw [List.eq_of_mem_replicate hd]
  exact h

end Token

namespace Value
open Text
variable {t : Token} {v : Value} {n : Int}

/-- A token that is read spells the integer that it denotes, if that is in range, and else a symbol.
-/
theorem ofToken_eq_ok_iff : ofToken t = .ok v ↔
    (∃ k n, t.Denotes k n ∧ k ≤ Numeral.maxDigits ∧ inRange n ∧ v = .int n) ∨
    (∀ k n, t.Denotes k n → k ≤ Numeral.maxDigits ∧ inRange n = false) ∧
      v = .symbol .reader t := by
  cases hm : Numeral.ofPlain? t.toList with
  | none =>
    have hno : ∀ k n, ¬ t.Denotes k n := by
      intro k n h
      obtain ⟨m, hs, _⟩ := Token.denotes_iff.mp h
      rw [hm] at hs
      cases hs
    have ht : ofToken t = .ok (.symbol .reader t) := by simp only [ofToken, hm]
    rw [ht, Except.ok.injEq]
    constructor
    · rintro rfl
      exact .inr ⟨fun k n h => (hno k n h).elim, rfl⟩
    · rintro (⟨k, n, h, _⟩ | ⟨_, rfl⟩)
      · exact (hno k n h).elim
      · rfl
  | some m =>
    have hd : t.Denotes m.digits.length m.value := Token.denotes_iff.mpr ⟨m, hm, rfl, rfl⟩
    simp only [ofToken, hm, Numeral.tooLong, decide_eq_true_eq]
    by_cases hl : Numeral.maxDigits < m.digits.length
    · rw [if_pos hl]
      constructor
      · intro h
        cases h
      · rintro (⟨k, n, h, hk, _⟩ | ⟨h, _⟩)
        · obtain ⟨rfl, _⟩ := hd.unique h
          omega
        · have hk := (h _ _ hd).1
          omega
    · rw [if_neg hl]
      cases hr : inRange m.value with
      | true =>
        rw [if_pos rfl, Except.ok.injEq]
        constructor
        · rintro rfl
          exact .inl ⟨_, _, hd, Nat.le_of_not_lt hl, hr, rfl⟩
        · rintro (⟨k, n, h, _, _, rfl⟩ | ⟨h, _⟩)
          · rw [(hd.unique h).2]
          · rw [(h _ _ hd).2] at hr
            cases hr
      | false =>
        rw [if_neg Bool.false_ne_true, Except.ok.injEq]
        constructor
        · rintro rfl
          refine .inr ⟨fun k n h => ?_, rfl⟩
          obtain ⟨rfl, rfl⟩ := hd.unique h
          exact ⟨Nat.le_of_not_lt hl, hr⟩
        · rintro (⟨k, n, h, _, hn, _⟩ | ⟨_, rfl⟩)
          · rw [← (hd.unique h).2, hr] at hn
            cases hn
          · rfl

/-- An integer in range is read as it is written. -/
theorem ofToken_writeInt (h : inRange n) : ofToken (writeInt n) = .ok (.int n) := by
  refine ofToken_eq_ok_iff.mpr (.inl ⟨_, n, Token.denotes_writeInt n, ?_, h, rfl⟩)
  have hn : n.natAbs < 10 ^ (9 + 1) := by
    rw [inRange_iff] at h
    omega
  exact Nat.le_trans (length_writeNat_le hn) (by decide)

theorem ofToken_eq_int_iff : ofToken t = .ok (.int n) ↔
    ∃ k, t.Denotes k n ∧ k ≤ Numeral.maxDigits ∧ inRange n := by
  rw [ofToken_eq_ok_iff]
  constructor
  · rintro (⟨k, _, hd, hk, hn, he⟩ | ⟨_, he⟩)
    · cases he
      exact ⟨k, hd, hk, hn⟩
    · cases he
  · rintro ⟨k, hd, hk, hn⟩
    exact .inl ⟨k, n, hd, hk, hn, rfl⟩

theorem ofToken_eq_int_or_symbol (h : ofToken t = .ok v) :
    (∃ n, inRange n ∧ v = .int n) ∨ v = .symbol .reader t := by
  rcases ofToken_eq_ok_iff.mp h with ⟨_, n, _, _, hn, rfl⟩ | ⟨_, rfl⟩
  · exact .inl ⟨n, hn, rfl⟩
  · exact .inr rfl

theorem ofToken_display?_int (h : inRange n) :
    ∃ s, display? (.int n) = .ok s ∧ ofToken s = .ok (.int n) :=
  ⟨writeInt n, if_pos (isWritable_of_inRange h), ofToken_writeInt h⟩

/-- The display of an atom is read as the atom again. -/
theorem ofToken_display? (h : ofToken t = .ok v) :
    ∃ s, v.display? = .ok s ∧ ofToken s = .ok v := by
  rcases ofToken_eq_int_or_symbol h with ⟨n, hn, rfl⟩ | rfl
  · exact ofToken_display?_int hn
  · exact ⟨t, rfl, h⟩

/-- Any text taken as an atom is an integer if it denotes one that is in range and not too long to
be read; it is refused if it is a numeral that is too long; else it is the symbol of that name.
What it is does not change when it is displayed and read again. -/
theorem atoms_decided (t : Token) :
    (∀ n, ofToken t = .ok (.int n) ↔
      ∃ k, t.Denotes k n ∧ k ≤ 4300 ∧ -2147483648 ≤ n ∧ n ≤ 2147483647) ∧
    (∀ e, ofToken t = .error e ↔ ∃ k, e = .longNumeral k ∧ 4300 < k ∧ t.IsNumeral k) ∧
    ((∀ n, ofToken t ≠ .ok (.int n)) → (∀ e, ofToken t ≠ .error e) →
      ofToken t = .ok (.symbol .reader t)) ∧
    (∀ n, -2147483648 ≤ n → n ≤ 2147483647 →
      ∃ s, display? (.int n) = .ok s ∧ ofToken s = .ok (.int n)) ∧
    (∀ v, ofToken t = .ok v → ∃ s, v.display? = .ok s ∧ ofToken s = .ok v) := by
  refine ⟨fun n => ?_, fun e => ofToken_eq_error_iff, fun hi he => ?_,
    fun n hl hu => ofToken_display?_int (inRange_iff.mpr ⟨hl, hu⟩), fun v => ofToken_display?⟩
  · rw [ofToken_eq_int_iff]
    simp only [inRange_iff]
    exact Iff.rfl
  · cases ht : ofToken t with
    | error e => exact (he e ht).elim
    | ok v =>
      rcases ofToken_eq_int_or_symbol ht with ⟨n, _, rfl⟩ | rfl
      · exact (hi n ht).elim
      · rfl

theorem atoms_decided_at_edges :
    ofToken "+0042" = .ok (.int 42) ∧
    ofToken "-2147483649" = .ok (.symbol .reader "-2147483649") ∧
    ofToken "7\n" = .ok (.symbol .reader "7\n") ∧
    ofToken "٣" = .ok (.symbol .reader "٣") ∧
    ofToken (String.ofList (List.replicate 4301 '0')) = .error (.longNumeral 4301) ∧
    (∃ s, display? (.int (-2147483648)) = .ok s ∧ ofToken s = .ok (.int (-2147483648))) ∧
    (∃ s, display? (.symbol .reader "-") = .ok s ∧ ofToken s = .ok (.symbol .reader "-")) := by
  have hd : Token.Denotes "+0042" 4 42 :=
    ⟨['+'], ['0', '0', '4', '2'], rfl, by decide, by decide, by simp, rfl, rfl⟩
  have hzeros := ((atoms_decided "+0042").1 42).mpr ⟨4, hd, by decide⟩
  have hn : Token.IsNumeral (String.ofList (List.replicate 4301 '0')) 4301 :=
    Token.isNumeral_replicate rfl 4301
  have hlong := ((atoms_decided _).2.1 _).mpr ⟨4301, rfl, by decide, hn⟩
  have hsymbol (s : String) := (atoms_decided s).2.2.1
  refine ⟨hzeros, hsymbol _ (fun n h => ?_) (fun e h => ?_),
    hsymbol _ (fun n h => ?_) (fun e h => ?_), hsymbol _ (fun n h => ?_) (fun e h => ?_),
    hlong, (atoms_decided "").2.2.2.1 _ (by decide) (by decide),
    (atoms_decided "-").2.2.2.2 _ rfl⟩
  all_goals cases h

end Value

end DynamicLisp
