import Mathlib
import DynamicLisp.Proofs.Reading.Atoms
import DynamicLisp.Proofs.Reading.Grammar
import DynamicLisp.Proofs.Reading.Tokens
import DynamicLisp.Proofs.Text.Line
import DynamicLisp.Proofs.Value.Renaming

/-! Forms written and read. Which values reading can give is told by the names of their symbols and
the range of their integers; and the display of each of them is read as that value again. -/
namespace DynamicLisp

namespace Token
open Text
variable {t : Token}

/-- The name of a symbol that is read: a word other than the quote mark, and no numeral but one that
is not too long and denotes an integer out of range. -/
structure IsName (t : Token) : Prop where
  word : IsWord t.toList
  ne_quote : t ≠ "'"
  not_numeral : ∀ k n, t.Denotes k n → k ≤ 4300 ∧ ¬ (-2147483648 ≤ n ∧ n ≤ 2147483647)

theorem isName_of_ofPlain? (hw : IsWord t.toList) (hq : t ≠ "'")
    (hn : ∀ m ∈ Numeral.ofPlain? t.toList,
      m.digits.length ≤ 4300 ∧ ¬ (-2147483648 ≤ m.value ∧ m.value ≤ 2147483647)) : t.IsName := by
  refine ⟨hw, hq, fun k n h => ?_⟩
  obtain ⟨m, hm, rfl, rfl⟩ := denotes_iff.mp h
  exact hn m hm

/-- A numeral is a word. -/
theorem Denotes.solid {k : Nat} {n : Int} (h : t.Denotes k n) :
    t.toList ≠ [] ∧ ∀ c ∈ t.toList, isBlank c = false ∧ c ∉ ['(', ')'] ∧ c ≠ '\x27' := by
  obtain ⟨sign, digits, he, hs, hne, hd, _, _⟩ := h
  rw [he]
  refine ⟨by simp [hne], fun c hc => ?_⟩
  rcases List.mem_append.mp hc with hc | hc
  · simp only [List.mem_cons, List.not_mem_nil, or_false] at hs
    rcases hs with rfl | rfl | rfl
    · cases hc
    · obtain rfl := List.mem_singleton.mp hc
      decide
    · obtain rfl := List.mem_singleton.mp hc
      decide
  · have hdigit := hd c hc
    refine ⟨isBlank_of_isDigit hdigit, ?_, ?_⟩
    · simp only [List.mem_cons, List.not_mem_nil, or_false]
      rintro (rfl | rfl) <;> cases hdigit
    · rintro rfl
      cases hdigit

theorem Denotes.isWord {k : Nat} {n : Int} (h : t.Denotes k n) : IsWord t.toList where
  ne_nil := h.solid.1
  solid c hc := ⟨(h.solid.2 c hc).1, (h.solid.2 c hc).2.1⟩
  mark hq := (h.solid.2 _ (List.mem_of_mem_dropLast hq)).2.2 rfl

theorem Denotes.ne_quote {k : Nat} {n : Int} (h : t.Denotes k n) : t ≠ "'" := by
  rintro rfl
  exact (h.solid.2 '\x27' (by decide)).2.2 rfl

theorem role_of_isWord (h : IsWord t.toList) (hq : t ≠ "'") : t.role = .atom := by
  have ho : t ≠ "(" := by
    rintro rfl
    exact (h.solid '(' (by decide)).2 (by decide)
  have hc : t ≠ ")" := by
    rintro rfl
    exact (h.solid ')' (by decide)).2 (by decide)
  rw [role, if_neg ho, if_neg hc, if_neg hq]

theorem isWord_of_role (h : t.IsWhole) (hr : t.role = .atom) : IsWord t.toList := by
  rcases h with rfl | rfl | h
  · cases hr
  · cases hr
  · exact h

end Token

namespace Value
open Text Token
variable {v : Value}

/-- The values that reading can give, whatever their identities: integers in range, symbols with
such names as are read, and lists of such values. -/
inductive IsForm : Value → Prop where
  | int {n : Int} (h : -2147483648 ≤ n ∧ n ≤ 2147483647) : IsForm (.int n)
  | symbol {i : Identity} {x : String} (h : IsName x) : IsForm (.symbol i x)
  | list {i : Identity} {items : List Value} (h : ∀ v ∈ items, IsForm v) : IsForm (.list i items)

mutual

/-- The tokens with which a form is written: those of the elements of a list between parentheses,
and for everything else its display. -/
def tokens : Value → List Token
  | list _ items => "(" :: tokensOfAll items ++ [")"]
  | v => [v.display]

/-- The tokens of several forms, one after the other. -/
def tokensOfAll : List Value → List Token
  | [] => []
  | v :: vs => v.tokens ++ tokensOfAll vs

end

theorem tokens_list (i : Identity) (items : List Value) :
    (list i items).tokens = "(" :: items.flatMap tokens ++ [")"] := by
  have hall : ∀ vs : List Value, tokensOfAll vs = vs.flatMap tokens := by
    intro vs
    induction vs with
    | nil => rfl
    | cons v vs ih => rw [tokensOfAll, ih, List.flatMap_cons]
  rw [tokens, hall]

theorem tokens_int (n : Int) : (int n).tokens = [writeInt n] := by
  simp [tokens, display]

theorem tokens_symbol (i : Identity) (x : String) : (symbol i x).tokens = [x] := by
  simp [tokens, display]

/-! ### Forms are read as they are written -/

theorem IsForm.isWhole_tokens (h : v.IsForm) : ∀ t ∈ v.tokens, t.IsWhole := by
  induction h with
  | int h =>
    rw [tokens_int]
    exact List.forall_mem_singleton.mpr (.inr (.inr (denotes_writeInt _).isWord))
  | symbol h =>
    rw [tokens_symbol]
    exact List.forall_mem_singleton.mpr (.inr (.inr h.word))
  | list h ih =>
    rw [tokens_list]
    intro t ht
    rcases List.mem_append.mp ht with ht | ht
    · rcases List.mem_cons.mp ht with rfl | ht
      · exact .inl rfl
      · obtain ⟨v, hv, ht⟩ := List.mem_flatMap.mp ht
        exact ih v hv t ht
    · rw [List.mem_singleton.mp ht]
      exact .inr (.inl rfl)

/-- The tokens of a form spell it. -/
theorem IsForm.spells_tokens (h : v.IsForm) : Reading.Spells v.tokens v.anonymous := by
  induction h with
  | @int n h =>
    rw [tokens_int]
    have hd := denotes_writeInt n
    exact .atom (role_of_isWord hd.isWord hd.ne_quote) (ofToken_writeInt (inRange_iff.mpr h))
  | @symbol i x h =>
    rw [tokens_symbol]
    refine .atom (role_of_isWord h.word h.ne_quote) (ofToken_eq_ok_iff.mpr (.inr ⟨?_, rfl⟩))
    intro k n hd
    obtain ⟨hk, hn⟩ := h.not_numeral k n hd
    exact ⟨hk, eq_false_of_ne_true fun hr => hn (inRange_iff.mp hr)⟩
  | @list i items h ih =>
    have hparts : ∀ p ∈ items.map fun v => (v.tokens, v.anonymous), Reading.Spells p.1 p.2 :=
      List.forall_mem_map.mpr ih
    have hs := Reading.Spells.list hparts
    rw [List.flatMap_map, List.map_map] at hs
    rw [tokens_list, anonymous, rename_list]
    exact hs

private theorem ofText_parentheses (s : String) :
    ofText ("(" ++ s ++ ")") = "(" :: ofText s ++ [")"] := by
  have ho : Break "(".toList s.toList := .inl fun c hc => by
    cases hc
    decide
  have hc : Break ("(" ++ s).toList ")".toList := .inr fun d hd => by
    cases hd
    decide
  have hopen : ofText "(" = ["("] := by decide
  have hclose : ofText ")" = [")"] := by decide
  rw [ofText_append hc, ofText_append ho, hopen, hclose]
  rfl

/-- The tokens of the display of a form are those with which it is written. -/
theorem IsForm.ofText_display (h : v.IsForm) : ofText v.display = v.tokens := by
  induction h with
  | int h =>
    rw [tokens_int, display]
    exact ofText_of_isWhole (.inr (.inr (denotes_writeInt _).isWord))
  | symbol h =>
    rw [tokens_symbol, display]
    exact ofText_of_isWhole (.inr (.inr h.word))
  | @list i items h ih =>
    rw [display, ofText_parentheses, ofText_intercalate isBlank_of_mem_space (by decide),
      displays_eq, tokens_list, List.flatMap_map, List.flatMap_congr ih]

theorem IsForm.read_tokens (h : v.IsForm) :
    Reading.ofTokens v.tokens = ⟨.ok v.anonymous, []⟩ :=
  Reading.ofTokens_eq_ok_iff.mpr ⟨v.tokens, (List.append_nil _).symm, h.spells_tokens⟩

/-! ### What is read is a form -/

theorem isForm_quoteHead : IsForm Reading.quoteHead :=
  .symbol (isName_of_ofPlain? (by decide) (by decide) (by decide))

theorem isForm_of_spells {c : List Token} (h : Reading.Spells c v) (hc : ∀ t ∈ c, t.IsWhole) :
    v.IsForm := by
  induction h with
  | @atom t f ht hf =>
    have hw : IsWord t.toList := isWord_of_role (hc t (.head _)) ht
    rcases ofToken_eq_ok_iff.mp hf with ⟨k, n, _, _, hn, rfl⟩ | ⟨hn, rfl⟩
    · exact .int (inRange_iff.mp hn)
    · refine .symbol ⟨hw, ?_, fun k n hd => ?_⟩
      · rintro rfl
        cases ht
      · obtain ⟨hk, hr⟩ := hn k n hd
        refine ⟨hk, fun h => ?_⟩
        rw [inRange_iff.mpr h] at hr
        cases hr
  | @list parts h ih =>
    refine .list (List.forall_mem_map.mpr fun p hp => ih p hp fun t ht => hc t ?_)
    exact List.mem_append_left _ (.tail _ (List.mem_flatMap.mpr ⟨p, hp, ht⟩))
  | @quoted parts h ih =>
    refine .list (List.forall_mem_cons.mpr ⟨isForm_quoteHead, ?_⟩)
    refine List.forall_mem_map.mpr fun p hp => ih p hp fun t ht => hc t ?_
    exact List.mem_append_left _ (.tail _ (.tail _ (List.mem_flatMap.mpr ⟨p, hp, ht⟩)))

theorem isForm_of_read {source : String}
    (h : (Reading.ofTokens (ofText source)).outcome = .ok v) : v.IsForm := by
  have hr : Reading.ofTokens (ofText source) =
      ⟨.ok v, (Reading.ofTokens (ofText source)).rest⟩ := by rw [← h]
  obtain ⟨c, hc, hs⟩ := Reading.ofTokens_eq_ok_iff.mp hr
  refine isForm_of_spells hs fun t ht => ?_
  have hm : t ∈ ofText source := hc ▸ List.mem_append_left _ ht
  exact isWhole_of_mem_ofText hm

/-- Being a form does not depend on identities. -/
theorem IsForm.of_anonymous_eq {w : Value} (h : v.IsForm) (he : v.anonymous = w.anonymous) :
    w.IsForm := by
  induction h generalizing w with
  | int h =>
    cases w <;> simp [anonymous, rename] at he
    exact he ▸ .int h
  | symbol h =>
    cases w <;> simp [anonymous, rename] at he
    exact .symbol (he ▸ h)
  | @list i items h ih =>
    cases w with
    | list j ws =>
      simp only [anonymous, rename_list, list.injEq, true_and] at he
      refine .list fun w hw => ?_
      have hm : w.anonymous ∈ items.map anonymous := by
        unfold anonymous
        rw [he]
        exact List.mem_map.mpr ⟨w, hw, rfl⟩
      obtain ⟨v, hv, hvw⟩ := List.mem_map.mp hm
      exact ih v hv hvw
    | _ => simp [anonymous, rename] at he

end Value

namespace Reading
open Token

/-- Displaying and reading: the values that are read from texts are, identities aside, just the
forms, and the display of a form is read as an equal form, with nothing left over. -/
theorem read_display :
    (∀ f : Value, (∃ source g, (ofTokens (ofText source)).outcome = .ok g ∧ g.equal f) ↔ f.IsForm) ∧
    ∀ f : Value, f.IsForm → ∃ g, ofTokens (ofText f.display) = ⟨.ok g, []⟩ ∧ g.equal f := by
  have hread : ∀ f : Value, f.IsForm →
      ∃ g, ofTokens (ofText f.display) = ⟨.ok g, []⟩ ∧ g.equal f := by
    intro f hf
    refine ⟨f.anonymous, ?_, ?_⟩
    · rw [hf.ofText_display]
      exact hf.read_tokens
    · exact Value.equal_iff.mpr Value.anonymous_rename
  refine ⟨fun f => ⟨?_, ?_⟩, hread⟩
  · -- what was read and `f` differ in identities alone, on which being a form does not depend
    rintro ⟨source, g, hg, he⟩
    exact (Value.isForm_of_read hg).of_anonymous_eq (Value.equal_iff.mp he)
  · intro hf
    obtain ⟨g, hg, he⟩ := hread f hf
    exact ⟨f.display, g, by rw [hg], he⟩

/-! Two names that almost are something else: a quote mark ends one, and the other is a numeral out
of range. -/

abbrev oddNames : Value :=
  .list 7 [.symbol 5 "a'", .list 4 [.symbol 3 "99999999999", .int (-7)], .list 8 []]

theorem read_display_oddNames :
    oddNames.IsForm ∧ oddNames.display = "(a' (99999999999 -7) ())" ∧
      ∃ g, ofTokens (ofText oddNames.display) = ⟨.ok g, []⟩ ∧ g.equal oddNames := by
  have ha : IsName "a'" := isName_of_ofPlain? (by decide) (by decide) (by decide)
  have hn : IsName "99999999999" := isName_of_ofPlain? (by decide) (by decide) (by decide)
  have hf : oddNames.IsForm := by
    refine .list (List.forall_mem_cons.mpr ⟨.symbol ha, ?_⟩)
    refine List.forall_mem_cons.mpr ⟨.list ?_, List.forall_mem_singleton.mpr (.list ?_)⟩
    · exact List.forall_mem_cons.mpr ⟨.symbol hn, List.forall_mem_singleton.mpr (.int (by decide))⟩
    · exact fun v hv => (List.not_mem_nil hv).elim
  exact ⟨hf, by cbv, read_display.2 oddNames hf⟩

end Reading

end DynamicLisp
