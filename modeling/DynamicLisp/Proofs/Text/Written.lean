import DynamicLisp.Text.Decimal

/-! Integers as they are written: digits without a zero in front, and a minus sign in front of the
negative ones alone. -/
namespace DynamicLisp.Text

private theorem isDigit_ofNat {d : Nat} (h : d < 10) : (Char.ofNat (48 + d)).isDigit := by
  have hall : ∀ d < 10, (Char.ofNat (48 + d)).isDigit := by decide
  exact hall d h

private theorem ofNat_eq_zero {d : Nat} (h : d < 10) (he : Char.ofNat (48 + d) = '0') : d = 0 := by
  have hall : ∀ d < 10, Char.ofNat (48 + d) = '0' → d = 0 := by decide
  exact hall d h he

theorem isDigit_of_mem_writeNat {n : Nat} : ∀ c ∈ writeNat n, c.isDigit := by
  induction n using writeNat.induct with
  | case1 n h =>
    rw [writeNat, if_pos h]
    exact List.forall_mem_singleton.mpr (isDigit_ofNat h)
  | case2 n h ih =>
    rw [writeNat, if_neg h]
    intro c hc
    rcases List.mem_append.mp hc with hc | hc
    · exact ih c hc
    · rw [List.mem_singleton.mp hc]
      exact isDigit_ofNat (Nat.mod_lt n (by decide))

theorem writeNat_ne_nil (n : Nat) : writeNat n ≠ [] := by
  rw [writeNat]
  split <;> simp

/-- Only the number zero is written with a zero in front. -/
theorem head?_writeNat {n : Nat} (h : (writeNat n).head? = some '0') : n = 0 := by
  induction n using writeNat.induct with
  | case1 n hn =>
    rw [writeNat, if_pos hn] at h
    exact ofNat_eq_zero hn (Option.some.inj h)
  | case2 n hn ih =>
    obtain ⟨c, cs, hc⟩ := List.exists_cons_of_ne_nil (writeNat_ne_nil (n / 10))
    have hz : n / 10 = 0 := by
      apply ih
      rw [writeNat, if_neg hn, hc] at h
      rw [hc]
      exact h
    omega

/-- The text spells an integer: digits, a zero in front only for zero itself, and perhaps a minus
sign, but not in front of zero. -/
def IsDecimal (s : String) : Prop :=
  ∃ sign digits : List Char, s.toList = sign ++ digits ∧ sign ∈ [[], ['-']] ∧ digits ≠ [] ∧
    (∀ c ∈ digits, c.isDigit) ∧ (digits.head? = some '0' → sign = [] ∧ digits = ['0'])

theorem isDecimal_writeInt (n : Int) : IsDecimal (writeInt n) := by
  have hd := isDigit_of_mem_writeNat (n := n.natAbs)
  by_cases hn : n < 0
  · refine ⟨['-'], writeNat n.natAbs, ?_, by simp, writeNat_ne_nil _, hd, ?_⟩
    · simp [writeInt, hn]
    · intro h
      have hz : n.natAbs = 0 := head?_writeNat h
      omega
  · refine ⟨[], writeNat n.natAbs, ?_, by simp, writeNat_ne_nil _, hd, ?_⟩
    · simp [writeInt, hn]
    · intro h
      rw [head?_writeNat h]
      exact ⟨rfl, by rw [writeNat]; rfl⟩

end DynamicLisp.Text
