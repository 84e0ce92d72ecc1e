import DynamicLisp.Reading

/-! What cannot be read. A token is refused just when it is a numeral of more digits than are read,
whatever its value is; everything else that reading refuses is a fault of the program. -/
namespace DynamicLisp

namespace Text.Numeral
variable {cs : List Char} {ds : List Nat}

theorem mapM_asciiDigit? (h : ∀ c ∈ cs, c.isDigit) :
    cs.mapM asciiDigit? = some (cs.map fun c => c.toNat - 48) := by
  induction cs with
  | nil => rfl
  | cons c cs ih =>
    obtain ⟨hc, hcs⟩ := List.forall_mem_cons.mp h
    have hd : asciiDigit? c = some (c.toNat - 48) := if_pos hc
    simp [List.mapM_cons, hd, ih hcs]

theorem isDigit_of_mapM_asciiDigit? (h : cs.mapM asciiDigit? = some ds) : ∀ c ∈ cs, c.isDigit := by
  induction cs generalizing ds with
  | nil => exact fun c hc => (List.not_mem_nil hc).elim
  | cons c cs ih =>
    rw [List.mapM_cons] at h
    obtain ⟨d, hd, h⟩ := Option.bind_eq_some_iff.mp h
    obtain ⟨es, hes, _⟩ := Option.bind_eq_some_iff.mp h
    have hc : c.isDigit := by
      unfold asciiDigit? at hd
      split at hd
      · next hc => exact hc
      · cases hd
    exact List.forall_mem_cons.mpr ⟨hc, ih hes⟩

/-- The first character decides whether there is a sign. -/
theorem splitSign_append {sign digits : List Char} (hs : sign ∈ [[], ['+'], ['-']])
    (hd : ∀ c ∈ digits, c.isDigit) :
    splitSign (sign ++ digits) = (decide (sign = ['-']), digits) := by
  simp only [List.mem_cons, List.not_mem_nil, or_false] at hs
  rcases hs with rfl | rfl | rfl
  · cases digits with
    | nil => rfl
    | cons c cs =>
      have hc : c.isDigit := hd c (.head _)
      have hm : c ≠ '-' := fun he => by simp [he] at hc
      have hp : c ≠ '+' := fun he => by simp [he] at hc
      simp [splitSign, hm, hp]
  · rfl
  · rfl

theorem exists_sign_append (cs : List Char) :
    ∃ sign ∈ [[], ['+'], ['-']], cs = sign ++ (splitSign cs).2 ∧
      (splitSign cs).1 = decide (sign = ['-']) := by
  fun_cases splitSign cs with
  | case1 cs => exact ⟨['-'], by simp, rfl, rfl⟩
  | case2 cs => exact ⟨['+'], by simp, rfl, rfl⟩
  | case3 => exact ⟨[], by simp, rfl, rfl⟩

/-- A numeral is read from digits of ASCII, at least one, with at most a sign in front. -/
theorem ofPlain?_eq_some_iff {n : Text.Numeral} : ofPlain? cs = some n ↔
    ∃ sign digits : List Char, cs = sign ++ digits ∧ sign ∈ [[], ['+'], ['-']] ∧ digits ≠ [] ∧
      (∀ c ∈ digits, c.isDigit) ∧
      n = ⟨decide (sign = ['-']), digits.map fun c => c.toNat - 48⟩ := by
  constructor
  · intro h
    obtain ⟨ds, hds, rfl⟩ := Option.map_eq_some_iff.mp h
    obtain ⟨sign, hs, he, hm⟩ := exists_sign_append cs
    simp only [plainDigits?] at hds
    split at hds
    · cases hds
    · next hne =>
      have hd := isDigit_of_mapM_asciiDigit? hds
      rw [mapM_asciiDigit? hd] at hds
      cases hds
      exact ⟨sign, _, he, hs, fun hn => hne (by rw [hn]; rfl), hd, by rw [hm]⟩
  · rintro ⟨sign, digits, rfl, hs, hne, hd, rfl⟩
    have hp : plainDigits? digits = some (digits.map fun c => c.toNat - 48) := by
      rw [plainDigits?, if_neg (by simpa using hne)]
      exact mapM_asciiDigit? hd
    rw [ofPlain?, splitSign_append hs hd, hp]
    rfl

end Text.Numeral

namespace Token
open Text.Numeral
variable {t : Token}

/-- The token consists of `n` digits of ASCII, perhaps with a sign in front. -/
def IsNumeral (t : Token) (n : Nat) : Prop :=
  ∃ sign digits : List Char, t.toList = sign ++ digits ∧ sign ∈ [[], ['+'], ['-']] ∧
    digits.length = n ∧ ∀ c ∈ digits, c.isDigit

theorem exists_ofPlain?_of_isNumeral {n : Nat} (h : t.IsNumeral n) (hn : 0 < n) :
    ∃ m, ofPlain? t.toList = some m ∧ m.digits.length = n := by
  obtain ⟨sign, digits, he, hs, rfl, hd⟩ := h
  have hne : digits ≠ [] := List.ne_nil_of_length_pos hn
  exact ⟨_, ofPlain?_eq_some_iff.mpr ⟨sign, digits, he, hs, hne, hd, rfl⟩, by simp⟩

theorem isNumeral_of_ofPlain? {m : Text.Numeral} (h : ofPlain? t.toList = some m) :
    t.IsNumeral m.digits.length := by
  obtain ⟨sign, digits, he, hs, _, hd, rfl⟩ := ofPlain?_eq_some_iff.mp h
  exact ⟨sign, digits, he, hs, by simp, hd⟩

end Token

/-- A token is not read as an atom just when it is a numeral that is too long. -/
theorem Value.ofToken_eq_error_iff {t : Token} {h : Halt} : ofToken t = .error h ↔
    ∃ n, h = .longNumeral n ∧ Text.Numeral.maxDigits < n ∧ t.IsNumeral n := by
  constructor
  · intro he
    simp only [ofToken] at he
    split at he
    · cases he
    · next m hm =>
      split at he
      · next hl =>
        cases he
        exact ⟨_, rfl, of_decide_eq_true hl, Token.isNumeral_of_ofPlain? hm⟩
      · split at he <;> cases he
  · rintro ⟨n, rfl, hl, hn⟩
    obtain ⟨m, hm, rfl⟩ := Token.exists_ofPlain?_of_isNumeral hn (Nat.zero_lt_of_lt hl)
    have ht : m.tooLong := decide_eq_true hl
    simp only [ofToken, hm, ht, if_true]

/-- The three marks are no numerals, so they are not refused as such. -/
theorem Token.role_of_error {t : Token} {h : Halt} (he : Value.ofToken t = .error h) :
    t.role = .atom := by
  cases hr : t.role with
  | atom => rfl
  | opening =>
    obtain rfl : t = "(" := by simpa [hr] using t.text_of_role
    cases he
  | closing =>
    obtain rfl : t = ")" := by simpa [hr] using t.text_of_role
    cases he
  | quote =>
    obtain rfl : t = "'" := by simpa [hr] using t.text_of_role
    cases he

namespace Reading

/-- What can be wrong with a form that has begun. -/
inductive Defect (ts : List Token) : Halt → Prop where
  | incomplete : Defect ts (.fault .missingCloseParen)
  | bareMark : Defect ts (.fault .quoteWithoutList)
  | longNumeral {t : Token} {n : Nat} (ht : t ∈ ts) (hn : t.IsNumeral n)
      (hl : Text.Numeral.maxDigits < n) : Defect ts (.longNumeral n)

variable {ts us : List Token} {e : Halt}

theorem ofTokens_of_error {t : Token} (h : Value.ofToken t = .error e) :
    ofTokens (t :: ts) = ⟨.error e, ts⟩ := by
  rw [ofTokens, read.eq_def]
  simp only [Token.role_of_error h, h]

theorem Defect.mono (h : Defect ts e) (hs : ts ⊆ us) : Defect us e := by
  cases h with
  | incomplete => exact .incomplete
  | bareMark => exact .bareMark
  | longNumeral ht hn hl => exact .longNumeral (hs ht) hn hl

/-- Only in front of a form there may be no token, or a parenthesis that closes nothing. -/
theorem defect_of_read {opened : List (List Value)} (h : (read opened ts).outcome = .error e) :
    Defect ts e ∨ opened = [] ∧ (ts = [] ∧ e = .fault .emptyProgram ∨
      ts.head? = some ")" ∧ e = .fault .unexpectedCloseParen) := by
  -- reading goes on inside an open list only, so what it is refused for there is a defect
  fun_induction read opened ts with
  | case1 =>
    cases h
    exact .inr ⟨rfl, .inl ⟨rfl, rfl⟩⟩
  | case2 =>
    cases h
    exact .inl .incomplete
  | case3 opened t ts ht ih =>
    rcases ih h with hd | ⟨ho, _⟩
    · exact .inl (hd.mono (List.subset_cons_self t ts))
    · cases ho
  | case4 =>
    cases h
    exact .inl .bareMark
  | case5 opened t ht u us hu ih =>
    rcases ih h with hd | ⟨ho, _⟩
    · exact .inl (hd.mono fun w hw => .tail t (.tail u hw))
    · cases ho
  | case6 =>
    cases h
    exact .inl .bareMark
  | case7 t ts ht =>
    obtain rfl : t = ")" := by simpa [ht] using t.text_of_role
    cases h
    exact .inr ⟨rfl, .inr ⟨rfl, rfl⟩⟩
  | case8 => cases h
  | case9 t ts ht items outer opened ih =>
    rcases ih h with hd | ⟨ho, _⟩
    · exact .inl (hd.mono (List.subset_cons_self t ts))
    · cases ho
  | case10 opened t ts ht e' he =>
    cases h
    obtain ⟨n, rfl, hl, hn⟩ := Value.ofToken_eq_error_iff.mp he
    exact .inl (.longNumeral (.head ts) hn hl)
  | case11 => cases h
  | case12 t ts ht v items opened hv ih =>
    rcases ih h with hd | ⟨ho, _⟩
    · exact .inl (hd.mono (List.subset_cons_self t ts))
    · cases ho

end Reading

end DynamicLisp
