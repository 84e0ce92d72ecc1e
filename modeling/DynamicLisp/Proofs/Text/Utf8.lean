import DynamicLisp.Text.Utf8

/-! Texts written and read as UTF-8. Main statement: the bytes of a text are decoded to the text. -/
namespace DynamicLisp.Text.Utf8
variable {position : Nat} {done : List Char} {p q : Pending} {b : UInt8} {bs : List UInt8}

/-! ### One byte at a time -/

private theorem readFrom_single (h : Pending.ofFirst? b = some p) (hm : p.missing = 0) :
    readFrom position done none (b :: bs) =
      readFrom (position + 1) (Char.ofNat p.code :: done) none bs := by
  rw [readFrom, h]
  exact if_pos hm

private theorem readFrom_first (h : Pending.ofFirst? b = some p) (hm : p.missing ≠ 0) :
    readFrom position done none (b :: bs) = readFrom (position + 1) done (some p) bs := by
  rw [readFrom, h]
  exact if_neg hm

private theorem readFrom_last (h : p.next? b = some q) (hm : q.missing = 0) :
    readFrom position done (some p) (b :: bs) =
      readFrom (position + 1) (Char.ofNat q.code :: done) none bs := by
  rw [readFrom, h]
  exact if_pos hm

private theorem readFrom_next (h : p.next? b = some q) (hm : q.missing ≠ 0) :
    readFrom position done (some p) (b :: bs) = readFrom (position + 1) done (some q) bs := by
  rw [readFrom, h]
  exact if_neg hm

/-- A byte that carries six bits more of a character. -/
private theorem next?_ofNat {x : Nat} (hx : x < 64) (hl : p.low ≤ x + 0x80)
    (hh : x + 0x80 ≤ p.high) :
    p.next? (UInt8.ofNat (x + 0x80)) =
      some ⟨p.first, p.read + 1, p.missing - 1, 0x80, 0xBF, 64 * p.code + x⟩ := by
  have hb : (UInt8.ofNat (x + 0x80)).toNat = x + 0x80 :=
    UInt8.toNat_ofNat_of_lt' (show x + 0x80 < 256 by omega)
  have hc : (decide (p.low ≤ x + 0x80) && decide (x + 0x80 ≤ p.high)) = true := by simp [hl, hh]
  rw [Pending.next?, hb, if_pos hc, Nat.add_sub_cancel]

private theorem next?_ofNat_of_free {first : UInt8} {read missing code x : Nat} (hx : x < 64) :
    Pending.next? ⟨first, read, missing, 0x80, 0xBF, code⟩ (UInt8.ofNat (x + 0x80)) =
      some ⟨first, read + 1, missing - 1, 0x80, 0xBF, 64 * code + x⟩ := by
  apply next?_ofNat hx
  · exact Nat.le_add_left _ _
  · dsimp only
    omega

/-! ### First bytes -/

private theorem ofFirst?_ascii {x : Nat} (hx : x < 0x80) :
    Pending.ofFirst? (UInt8.ofNat x) = some ⟨UInt8.ofNat x, 1, 0, 0, 0, x⟩ := by
  have hb : (UInt8.ofNat x).toNat = x :=
    UInt8.toNat_ofNat_of_lt' (show x < 256 by omega)
  simp only [Pending.ofFirst?, hb]
  rw [if_pos hx]

private theorem ofFirst?_two {x : Nat} (hl : 2 ≤ x) (hh : x < 32) :
    Pending.ofFirst? (UInt8.ofNat (x + 0xC0)) =
      some ⟨UInt8.ofNat (x + 0xC0), 1, 1, 0x80, 0xBF, x⟩ := by
  have hb : (UInt8.ofNat (x + 0xC0)).toNat = x + 0xC0 :=
    UInt8.toNat_ofNat_of_lt' (show x + 0xC0 < 256 by omega)
  simp only [Pending.ofFirst?, hb]
  rw [if_neg (by omega), if_neg (by omega), if_pos (by omega), Nat.add_sub_cancel]

private theorem ofFirst?_three {x : Nat} (hx : x < 16) :
    Pending.ofFirst? (UInt8.ofNat (x + 0xE0)) =
      some ⟨UInt8.ofNat (x + 0xE0), 1, 2, if x = 0 then 0xA0 else 0x80,
        if x = 13 then 0x9F else 0xBF, x⟩ := by
  have hb : (UInt8.ofNat (x + 0xE0)).toNat = x + 0xE0 :=
    UInt8.toNat_ofNat_of_lt' (show x + 0xE0 < 256 by omega)
  have hlow : (x + 0xE0 = 0xE0) = (x = 0) := by rw [eq_iff_iff]; omega
  have hhigh : (x + 0xE0 = 0xED) = (x = 13) := by rw [eq_iff_iff]; omega
  simp only [Pending.ofFirst?, hb, hlow, hhigh]
  rw [if_neg (by omega), if_neg (by omega), if_neg (by omega), if_pos (by omega),
    Nat.add_sub_cancel]

private theorem ofFirst?_four {x : Nat} (hx : x < 5) :
    Pending.ofFirst? (UInt8.ofNat (x + 0xF0)) =
      some ⟨UInt8.ofNat (x + 0xF0), 1, 3, if x = 0 then 0x90 else 0x80,
        if x = 4 then 0x8F else 0xBF, x⟩ := by
  have hb : (UInt8.ofNat (x + 0xF0)).toNat = x + 0xF0 :=
    UInt8.toNat_ofNat_of_lt' (show x + 0xF0 < 256 by omega)
  have hlow : (x + 0xF0 = 0xF0) = (x = 0) := by rw [eq_iff_iff]; omega
  have hhigh : (x + 0xF0 = 0xF4) = (x = 4) := by rw [eq_iff_iff]; omega
  simp only [Pending.ofFirst?, hb, hlow, hhigh]
  rw [if_neg (by omega), if_neg (by omega), if_neg (by omega), if_neg (by omega),
    if_pos (by omega), Nat.add_sub_cancel]

/-! ### One character at a time -/

section Characters
variable {v : Nat}

private theorem readFrom_ascii (hv : v < 0x80) :
    readFrom position done none (UInt8.ofNat v :: bs) =
      readFrom (position + 1) (Char.ofNat v :: done) none bs :=
  readFrom_single (ofFirst?_ascii hv) rfl

private theorem readFrom_two (hl : 0x80 ≤ v) (hh : v < 0x800) :
    readFrom position done none
        (UInt8.ofNat (v / 64 + 0xC0) :: UInt8.ofNat (v % 64 + 0x80) :: bs) =
      readFrom (position + 2) (Char.ofNat v :: done) none bs := by
  have hcode : 64 * (v / 64) + v % 64 = v := by omega
  rw [readFrom_first (ofFirst?_two (by omega) (by omega)) Nat.one_ne_zero,
    readFrom_last (next?_ofNat_of_free (by omega)) rfl, hcode]

/-- The second of three bytes is bounded, since the first is the same for shorter characters and
for surrogates. -/
private theorem readFrom_three (hl : 0x800 ≤ v) (hh : v < 0x10000)
    (hs : v < 0xD800 ∨ 0xDFFF < v) :
    readFrom position done none (UInt8.ofNat (v / 4096 + 0xE0) ::
        UInt8.ofNat (v / 64 % 64 + 0x80) :: UInt8.ofNat (v % 64 + 0x80) :: bs) =
      readFrom (position + 3) (Char.ofNat v :: done) none bs := by
  have hlow : (if v / 4096 = 0 then 0xA0 else 0x80) ≤ v / 64 % 64 + 0x80 := by
    split <;> omega
  have hhigh : v / 64 % 64 + 0x80 ≤ (if v / 4096 = 13 then 0x9F else 0xBF) := by
    split <;> omega
  have hcode : 64 * (64 * (v / 4096) + v / 64 % 64) + v % 64 = v := by omega
  rw [readFrom_first (ofFirst?_three (by omega)) (Nat.succ_ne_zero 1),
    readFrom_next (next?_ofNat (by omega) hlow hhigh) (by simp),
    readFrom_last (next?_ofNat_of_free (by omega)) rfl, hcode]

/-- The second of four bytes is bounded, since the first is the same for shorter characters and
beyond the last one. -/
private theorem readFrom_four (hl : 0x10000 ≤ v) (hh : v < 0x110000) :
    readFrom position done none (UInt8.ofNat (v / 262144 + 0xF0) ::
        UInt8.ofNat (v / 4096 % 64 + 0x80) :: UInt8.ofNat (v / 64 % 64 + 0x80) ::
        UInt8.ofNat (v % 64 + 0x80) :: bs) =
      readFrom (position + 4) (Char.ofNat v :: done) none bs := by
  have hlow : (if v / 262144 = 0 then 0x90 else 0x80) ≤ v / 4096 % 64 + 0x80 := by
    split <;> omega
  have hhigh : v / 4096 % 64 + 0x80 ≤ (if v / 262144 = 4 then 0x8F else 0xBF) := by
    split <;> omega
  have hcode : 64 * (64 * (64 * (v / 262144) + v / 4096 % 64) + v / 64 % 64) + v % 64 = v := by
    omega
  rw [readFrom_first (ofFirst?_four (by omega)) (Nat.succ_ne_zero 2),
    readFrom_next (next?_ofNat (by omega) hlow hhigh) (by simp),
    readFrom_next (next?_ofNat_of_free (by omega)) (by simp),
    readFrom_last (next?_ofNat_of_free (by omega)) rfl, hcode]

end Characters

/-- The bytes of a character are read as that character. -/
theorem readFrom_utf8EncodeChar (c : Char) :
    readFrom position done none (String.utf8EncodeChar c ++ bs) =
      readFrom (position + (String.utf8EncodeChar c).length) (c :: done) none bs := by
  have hc : c.val.toNat < 0xD800 ∨ 0xDFFF < c.val.toNat ∧ c.val.toNat < 0x110000 := c.valid
  have hof : Char.ofNat c.val.toNat = c := Char.ofNat_toNat c
  unfold String.utf8EncodeChar
  generalize c.val.toNat = v at hc hof
  subst hof
  by_cases h1 : v ≤ 0x7F
  · simp only [if_pos h1]
    exact readFrom_ascii (by omega)
  · by_cases h2 : v ≤ 0x7FF
    · simp only [if_neg h1, if_pos h2]
      have hv : v / 64 % 32 = v / 64 := by omega
      rw [hv]
      exact readFrom_two (by omega) (by omega)
    · by_cases h3 : v ≤ 0xFFFF
      · simp only [if_neg h1, if_neg h2, if_pos h3]
        have hv : v / 4096 % 16 = v / 4096 := by omega
        rw [hv]
        exact readFrom_three (by omega) (by omega) (by omega)
      · simp only [if_neg h1, if_neg h2, if_neg h3]
        have hv : v / 262144 % 8 = v / 262144 := by omega
        rw [hv]
        exact readFrom_four (by omega) (by omega)

private theorem readFrom_flatMap (cs : List Char) :
    readFrom position done none (cs.flatMap String.utf8EncodeChar) = .ok (done.reverse ++ cs) := by
  induction cs generalizing position done with
  | nil => rw [List.flatMap_nil, readFrom, List.append_nil]
  | cons c cs ih => rw [List.flatMap_cons, readFrom_utf8EncodeChar, ih]; simp

/-- The bytes of a text are decoded to the text. -/
theorem decode_toUTF8 (s : String) : decode s.toUTF8.data.toList = .ok s := by
  have hb : s.toUTF8.data.toList = s.toList.flatMap String.utf8EncodeChar := by
    rw [String.toUTF8_eq_toByteArray, ← String.utf8Encode_toList, List.utf8Encode,
      List.toList_data_toByteArray]
  rw [decode, hb, readFrom_flatMap]
  simp [Except.map]

end DynamicLisp.Text.Utf8
