import Mathlib.Data.List.Basic
import DynamicLisp.Proofs.Text.Written
import DynamicLisp.Text.Blank
import DynamicLisp.Text.Quoted

/-! Texts that fit on one line. The only blank in them is the space, so nothing in them ends a line,
whatever counts as the end of one. -/
namespace DynamicLisp.Text

/-- No character of the text is a blank other than the space. -/
def IsLine (s : String) : Prop :=
  ∀ c ∈ s.toList, isBlank c → c = ' '

instance (s : String) : Decidable (IsLine s) :=
  List.decidableBAll (fun c => isBlank c → c = ' ') s.toList

variable {s a b : String}

theorem IsLine.append (ha : IsLine a) (hb : IsLine b) : IsLine (a ++ b) := by
  intro c hc
  rw [String.toList_append] at hc
  exact (List.mem_append.mp hc).elim (ha c) (hb c)

theorem IsLine.intercalate {sep : String} {ds : List String} (hs : IsLine sep)
    (h : ∀ d ∈ ds, IsLine d) : IsLine (sep.intercalate ds) := by
  induction ds with
  | nil => exact (by decide : IsLine "")
  | cons d ds ih =>
    obtain ⟨hd, hds⟩ := List.forall_mem_cons.mp h
    cases ds with
    | nil => rwa [String.intercalate_singleton]
    | cons e ds =>
      rw [String.intercalate_cons_cons]
      exact (hd.append hs).append (ih hds)

theorem isLine_ofList {cs : List Char} (h : ∀ c ∈ cs, isBlank c → c = ' ') :
    IsLine (String.ofList cs) := by
  intro c hc
  rw [String.toList_ofList] at hc
  exact h c hc

/-! ### Numbers -/

theorem isBlank_of_isDigit {c : Char} (h : c.isDigit) : isBlank c = false := by
  have hd : 48 ≤ c.toNat ∧ c.toNat ≤ 57 := by
    simpa [Char.isDigit, UInt32.le_iff_toNat_le] using h
  simp only [isBlank, blankRanges, List.any_cons, List.any_nil, Bool.or_false, Bool.or_eq_false_iff,
    Bool.and_eq_false_iff, decide_eq_false_iff_not]
  omega

private theorem eq_space_of_isDigit {c : Char} (h : c.isDigit) (hb : isBlank c) : c = ' ' := by
  rw [isBlank_of_isDigit h] at hb
  cases hb

theorem isLine_writeInt (n : Int) : IsLine (writeInt n) := by
  have hd : ∀ c ∈ writeNat n.natAbs, isBlank c → c = ' ' := fun c hc =>
    eq_space_of_isDigit (isDigit_of_mem_writeNat c hc)
  unfold writeInt
  split
  · exact isLine_ofList (List.forall_mem_cons.mpr ⟨by decide, hd⟩)
  · exact isLine_ofList hd

theorem isLine_toString (n : Nat) : IsLine (toString n) := by
  intro c hc
  rw [Nat.toString_eq_ofList_toDigits, String.toList_ofList] at hc
  exact eq_space_of_isDigit (Nat.isDigit_of_mem_toDigits (b := 10) (by decide) (by decide) hc)

/-! ### Quoted texts -/

private theorem hexDigits_solid (width n : Nat) : ∀ c ∈ hexDigits width n, isBlank c = false := by
  have hall : ∀ d < 16, isBlank (Nat.digitChar d) = false := by decide
  induction width generalizing n with
  | zero => exact fun c hc => (List.not_mem_nil hc).elim
  | succ width ih =>
    rw [hexDigits]
    refine List.forall_mem_append.mpr ⟨ih (n / 16), List.forall_mem_singleton.mpr ?_⟩
    exact hall (n % 16) (Nat.mod_lt n (by decide))

private theorem escapeCode_solid (c : Char) : ∀ d ∈ escapeCode c, isBlank d = false := by
  have hrow : ∀ x width, isBlank x = false → ∀ d ∈ '\\' :: x :: hexDigits width c.toNat,
      isBlank d = false := fun x width hx =>
    List.forall_mem_cons.mpr ⟨by decide,
      List.forall_mem_cons.mpr ⟨hx, hexDigits_solid width c.toNat⟩⟩
  unfold escapeCode
  split
  · exact hrow 'x' 2 (by decide)
  · split
    · exact hrow 'u' 4 (by decide)
    · exact hrow 'U' 8 (by decide)

private theorem escape_line {q c : Char} (hc : isBlank c → c = ' ') :
    ∀ d ∈ escape q c, isBlank d → d = ' ' := by
  have htwo : ∀ x, (isBlank x → x = ' ') → ∀ d ∈ ['\\', x], isBlank d → d = ' ' := fun x hx =>
    List.forall_mem_cons.mpr ⟨by decide, List.forall_mem_singleton.mpr hx⟩
  unfold escape
  split
  · exact htwo c hc
  · split
    · exact htwo 'n' (by decide)
    · split
      · exact htwo 'r' (by decide)
      · split
        · exact htwo 't' (by decide)
        · split
          · exact List.forall_mem_singleton.mpr hc
          · intro d hd hb
            rw [escapeCode_solid c d hd] at hb
            cases hb

/-- A quoted text stays on one line if the text does. -/
theorem IsLine.quoted (h : IsLine s) : IsLine (quoted s) := by
  have hq : ∀ c ∈ [enclosingQuote s.toList], isBlank c → c = ' ' := by
    refine List.forall_mem_singleton.mpr ?_
    unfold enclosingQuote
    split <;> decide
  apply isLine_ofList
  rw [← List.singleton_append]
  refine List.forall_mem_append.mpr ⟨List.forall_mem_append.mpr ⟨hq, ?_⟩, hq⟩
  intro d hd
  obtain ⟨c, hc, hd⟩ := List.mem_flatMap.mp hd
  exact escape_line (h c hc) d hd

end DynamicLisp.Text
