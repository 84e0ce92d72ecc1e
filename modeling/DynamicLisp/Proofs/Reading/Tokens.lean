import Mathlib.Data.List.Basic
import DynamicLisp.Token

/-! Tokens in one scan. A text is cut into tokens without looking back, so it can be cut at every
place where no token goes on; and tokens with any layout between them are the tokens of the text. -/
namespace DynamicLisp.Token
open Text

/-- The tokens of a text that goes on from an unfinished one (its last character first), found in
one scan: a quote mark ends the token in which it stands, and a parenthesis is a token itself. -/
def scan : List Char → List Char → List (List Char)
  | word, [] => closeWord word
  | word, c :: cs =>
    if isBlank c then closeWord word ++ scan [] cs
    else if c ∈ ['(', ')'] then closeWord word ++ [c] :: scan [] cs
    else if c = '\x27' then closeWord (c :: word) ++ scan [] cs
    else scan (c :: word) cs

variable {word cs ds : List Char} {c : Char}

private theorem wordsFrom_pad (word : List Char) (c : Char) (ds : List Char) :
    wordsFrom word (pad c ++ ds) =
      if isBlank c then closeWord word ++ wordsFrom [] ds
      else if c ∈ ['(', ')'] then closeWord word ++ [c] :: wordsFrom [] ds
      else if c = '\x27' then closeWord (c :: word) ++ wordsFrom [] ds
      else wordsFrom (c :: word) ds := by
  have hs : isBlank ' ' := by decide
  by_cases hp : c ∈ ['(', ')']
  · have hb : isBlank c = false := by
      simp only [List.mem_cons, List.not_mem_nil, or_false] at hp
      rcases hp with rfl | rfl <;> decide
    have hpad : pad c = [' ', c, ' '] := if_pos (by simpa using hp)
    simp [hpad, wordsFrom, hs, hb, hp, closeWord]
  · by_cases hq : c = '\x27'
    · subst hq
      have hb : isBlank '\x27' = false := by decide
      have hpad : pad '\x27' = ['\x27', ' '] := rfl
      simp [hpad, wordsFrom, hs, hb]
    · have hpad : pad c = [c] := by
        have hp' : ¬ (c = '(' || c = ')') := by simpa using hp
        simp [pad, hp', hq]
      rw [hpad, List.singleton_append, wordsFrom, if_neg hp, if_neg hq]

theorem wordsFrom_flatMap_pad (word cs : List Char) :
    wordsFrom word (cs.flatMap pad) = scan word cs := by
  induction cs generalizing word with
  | nil => rfl
  | cons c cs ih => rw [List.flatMap_cons, wordsFrom_pad, scan, ih, ih]

/-- Padding a text and cutting it at its blanks is one scan. -/
theorem ofText_eq_scan (source : String) :
    ofText source = (scan [] source.toList).map String.ofList := by
  rw [ofText, words, wordsFrom_flatMap_pad]

/-! ### Cutting a text -/

/-- No token goes on from `cs` into `ds`. -/
def Break (cs ds : List Char) : Prop :=
  (∀ c, cs.getLast? = some c → isBlank c ∨ c ∈ ['(', ')', '\x27']) ∨
    ∀ d, ds.head? = some d → isBlank d ∨ d ∈ ['(', ')']

/-- One character completes some tokens and leaves a token begun, whatever follows. -/
theorem scan_cons (word : List Char) (c : Char) :
    ∃ ws begun, ∀ cs, scan word (c :: cs) = ws ++ scan begun cs := by
  by_cases hb : isBlank c
  · exact ⟨closeWord word, [], fun cs => by rw [scan, if_pos hb]⟩
  · by_cases hp : c ∈ ['(', ')']
    · exact ⟨closeWord word ++ [[c]], [], fun cs => by simp [scan, hb, hp]⟩
    · by_cases hq : c = '\x27'
      · exact ⟨closeWord (c :: word), [], fun cs => by rw [scan, if_neg hb, if_neg hp, if_pos hq]⟩
      · exact ⟨[], c :: word, fun cs => by rw [scan, if_neg hb, if_neg hp, if_neg hq]; rfl⟩

private theorem scan_break_before (h : ∀ d, ds.head? = some d → isBlank d ∨ d ∈ ['(', ')']) :
    scan word ds = closeWord word ++ scan [] ds := by
  cases ds with
  | nil => simp [scan, closeWord]
  | cons d ds =>
    rw [scan, scan]
    by_cases hb : isBlank d
    · rw [if_pos hb, if_pos hb]
      rfl
    · have hp : d ∈ ['(', ')'] := (h d rfl).resolve_left hb
      rw [if_neg hb, if_neg hb, if_pos hp, if_pos hp]
      rfl

private theorem scan_break_after (h : isBlank c ∨ c ∈ ['(', ')', '\x27']) :
    scan word (c :: ds) = scan word [c] ++ scan [] ds := by
  have hn : scan [] [] = [] := rfl
  rw [scan, scan]
  by_cases hb : isBlank c
  · simp [hb, hn]
  · rw [if_neg hb, if_neg hb]
    by_cases hp : c ∈ ['(', ')']
    · simp [hp, hn]
    · have hq : c = '\x27' := by
        have hc := h.resolve_left hb
        simp only [List.mem_cons, List.not_mem_nil, or_false, not_or] at hp hc
        exact (hc.resolve_left hp.1).resolve_left hp.2
      simp [hq, hn]

private theorem scan_append_of_head (h : ∀ d, ds.head? = some d → isBlank d ∨ d ∈ ['(', ')']) :
    scan word (cs ++ ds) = scan word cs ++ scan [] ds := by
  induction cs generalizing word with
  | nil => exact scan_break_before h
  | cons c cs ih =>
    obtain ⟨ws, begun, hs⟩ := scan_cons word c
    rw [List.cons_append, hs, hs, ih, List.append_assoc]

private theorem scan_append_of_last (h : isBlank c ∨ c ∈ ['(', ')', '\x27']) :
    scan word (cs ++ c :: ds) = scan word (cs ++ [c]) ++ scan [] ds := by
  induction cs generalizing word with
  | nil => exact scan_break_after h
  | cons b cs ih =>
    obtain ⟨ws, begun, hs⟩ := scan_cons word b
    rw [List.cons_append, List.cons_append, hs, hs, ih, List.append_assoc]

/-- The tokens of a text in two parts are those of both, if none goes on between them. -/
theorem scan_append (h : Break cs ds) : scan [] (cs ++ ds) = scan [] cs ++ scan [] ds := by
  rcases h with h | h
  · rcases List.eq_nil_or_concat' cs with rfl | ⟨bs, c, rfl⟩
    · rfl
    · rw [List.append_assoc, List.singleton_append]
      exact scan_append_of_last (h c List.getLast?_concat)
  · exact scan_append_of_head h

theorem ofText_append {s t : String} (h : Break s.toList t.toList) :
    ofText (s ++ t) = ofText s ++ ofText t := by
  rw [ofText_eq_scan, ofText_eq_scan, ofText_eq_scan, String.toList_append, scan_append h,
    List.map_append]

/-! ### What is a token -/

/-- Blanks and parentheses stand in no token, and a quote mark only at its end. -/
structure IsWord (cs : List Char) : Prop where
  ne_nil : cs ≠ []
  solid : ∀ c ∈ cs, isBlank c = false ∧ c ∉ ['(', ')']
  mark : '\x27' ∉ cs.dropLast

instance (cs : List Char) : Decidable (IsWord cs) :=
  decidable_of_iff (cs ≠ [] ∧ cs.all (fun c => isBlank c = false ∧ c ∉ ['(', ')']) = true ∧
    '\x27' ∉ cs.dropLast) <| by
    simp only [List.all_eq_true, decide_eq_true_eq]
    exact ⟨fun h => ⟨h.1, h.2.1, h.2.2⟩, fun h => ⟨h.1, h.2, h.3⟩⟩

/-- A token as a text has them: a parenthesis or a word. -/
def IsWhole (t : Token) : Prop :=
  t = "(" ∨ t = ")" ∨ IsWord t.toList

private theorem scan_append_of_solid (h : ∀ c ∈ cs, isBlank c = false ∧ c ∉ ['(', ')'])
    (hq : '\x27' ∉ cs) : scan word (cs ++ ds) = scan (cs.reverse ++ word) ds := by
  induction cs generalizing word with
  | nil => rfl
  | cons c cs ih =>
    obtain ⟨⟨hb, hp⟩, hcs⟩ := List.forall_mem_cons.mp h
    have hc : c ≠ '\x27' := fun he => hq (he ▸ .head _)
    rw [List.cons_append, scan, hb, if_neg Bool.false_ne_true, if_neg hp, if_neg hc,
      ih hcs fun hm => hq (.tail c hm)]
    simp

/-- A word is one token. -/
theorem scan_of_isWord (h : IsWord cs) : scan [] cs = [cs] := by
  obtain ⟨bs, c, rfl⟩ := (List.eq_nil_or_concat' cs).resolve_left h.ne_nil
  have hbs : ∀ b ∈ bs, isBlank b = false ∧ b ∉ ['(', ')'] := fun b hb =>
    h.solid b (List.mem_append_left _ hb)
  have hq : '\x27' ∉ bs := by simpa using h.mark
  obtain ⟨hb, hp⟩ := h.solid c (List.mem_append_right bs (.head _))
  rw [scan_append_of_solid hbs hq, scan, hb, if_neg Bool.false_ne_true, if_neg hp]
  split <;> simp [scan, closeWord]

theorem scan_of_isWhole {t : Token} (h : t.IsWhole) : scan [] t.toList = [t.toList] := by
  rcases h with rfl | rfl | h
  · rfl
  · rfl
  · exact scan_of_isWord h

theorem ofText_of_isWhole {t : Token} (h : t.IsWhole) : ofText t = [t] := by
  rw [ofText_eq_scan, scan_of_isWhole h, List.map_singleton, String.ofList_toList]

private theorem isWord_reverse (hc : isBlank c = false ∧ c ∉ ['(', ')'])
    (h : ∀ b ∈ word, (isBlank b = false ∧ b ∉ ['(', ')']) ∧ b ≠ '\x27') :
    IsWord (c :: word).reverse where
  ne_nil := by simp
  solid b hb := by
    rcases List.mem_cons.mp (List.mem_reverse.mp hb) with rfl | hb
    · exact hc
    · exact (h b hb).1
  mark hq := by
    have hm : '\x27' ∈ word := by simpa using hq
    exact (h _ hm).2 rfl

private theorem isWord_of_mem_closeWord {w : List Char} (hw : w ∈ closeWord word)
    (h : ∀ b ∈ word, (isBlank b = false ∧ b ∉ ['(', ')']) ∧ b ≠ '\x27') : IsWord w := by
  cases word with
  | nil => exact (List.not_mem_nil hw).elim
  | cons c word =>
    obtain ⟨hc, hword⟩ := List.forall_mem_cons.mp h
    rw [List.mem_singleton.mp hw]
    exact isWord_reverse hc.1 hword

private theorem mem_scan {w : List Char} (hw : w ∈ scan word cs)
    (h : ∀ b ∈ word, (isBlank b = false ∧ b ∉ ['(', ')']) ∧ b ≠ '\x27') :
    w = ['('] ∨ w = [')'] ∨ IsWord w := by
  have hn : ∀ b ∈ ([] : List Char), (isBlank b = false ∧ b ∉ ['(', ')']) ∧ b ≠ '\x27' :=
    fun b hb => (List.not_mem_nil hb).elim
  -- a token begun holds no quote mark, since a quote mark ends the token
  fun_induction scan word cs with
  | case1 word => exact .inr (.inr (isWord_of_mem_closeWord hw h))
  | case2 word c cs hb ih =>
    rcases List.mem_append.mp hw with hw | hw
    · exact .inr (.inr (isWord_of_mem_closeWord hw h))
    · exact ih hw hn
  | case3 word c cs hb hp ih =>
    rcases List.mem_append.mp hw with hw | hw
    · exact .inr (.inr (isWord_of_mem_closeWord hw h))
    · rcases List.mem_cons.mp hw with rfl | hw
      · simp only [List.mem_cons, List.not_mem_nil, or_false] at hp
        rcases hp with rfl | rfl
        · exact .inl rfl
        · exact .inr (.inl rfl)
      · exact ih hw hn
  | case4 word cs hb hp ih =>
    rcases List.mem_append.mp hw with hw | hw
    · rw [List.mem_singleton.mp hw]
      exact .inr (.inr (isWord_reverse ⟨eq_false_of_ne_true hb, hp⟩ h))
    · exact ih hw hn
  | case5 word c cs hb hp hq ih =>
    exact ih hw (List.forall_mem_cons.mpr ⟨⟨⟨eq_false_of_ne_true hb, hp⟩, hq⟩, h⟩)

/-- Every token of a text is a parenthesis or a word. -/
theorem isWhole_of_mem_ofText {source : String} {t : Token} (h : t ∈ ofText source) :
    t.IsWhole := by
  rw [ofText_eq_scan] at h
  obtain ⟨w, hw, rfl⟩ := List.mem_map.mp h
  rcases mem_scan hw fun b hb => (List.not_mem_nil hb).elim with rfl | rfl | hword
  · exact .inl rfl
  · exact .inr (.inl rfl)
  · refine .inr (.inr ?_)
    rwa [String.toList_ofList]

/-! ### Layout -/

/-- A text sets out the tokens: they stand in it in order, with any blanks before, between and
behind them, and at least one blank where two of them would run into each other. -/
inductive Layout : List Token → List Char → Prop where
  | blank {gap : List Char} (hg : ∀ c ∈ gap, isBlank c) : Layout [] gap
  | token {t : Token} {ts : List Token} {gap cs : List Char} (hg : ∀ c ∈ gap, isBlank c)
      (hb : Break t.toList cs) (h : Layout ts cs) : Layout (t :: ts) (gap ++ (t.toList ++ cs))

private theorem scan_append_of_blank {gap : List Char} (hg : ∀ c ∈ gap, isBlank c) :
    scan [] (gap ++ cs) = scan [] cs := by
  induction gap with
  | nil => rfl
  | cons c gap ih =>
    obtain ⟨hc, hgap⟩ := List.forall_mem_cons.mp hg
    rw [List.cons_append, scan, if_pos hc, ih hgap]
    rfl

private theorem Layout.scan_eq {ts : List Token} (h : Layout ts cs) (hts : ∀ t ∈ ts, t.IsWhole) :
    scan [] cs = ts.map String.toList := by
  induction h with
  | @blank gap hg =>
    have hs : scan [] (gap ++ []) = scan [] [] := scan_append_of_blank hg
    rwa [List.append_nil] at hs
  | token hg hb _ ih =>
    obtain ⟨ht, hts⟩ := List.forall_mem_cons.mp hts
    rw [scan_append_of_blank hg, scan_append hb, scan_of_isWhole ht, ih hts]
    rfl

/-- The tokens of a text are those that it sets out. -/
theorem Layout.ofText_eq {ts : List Token} {source : String} (h : Layout ts source.toList)
    (hts : ∀ t ∈ ts, t.IsWhole) : ofText source = ts := by
  rw [ofText_eq_scan, h.scan_eq hts, List.map_map]
  exact (List.map_congr_left fun t _ => String.ofList_toList).trans (List.map_id ts)

/-- A blank text has no tokens. -/
theorem ofText_of_blank {w : String} (hw : ∀ c ∈ w.toList, isBlank c) : ofText w = [] :=
  (Layout.blank hw).ofText_eq fun _ ht => (List.not_mem_nil ht).elim

/-- Texts with blanks between them have the tokens of both. -/
theorem ofText_apart {a b w : String} (hw : ∀ c ∈ w.toList, isBlank c) (hne : w ≠ "") :
    ofText (a ++ w ++ b) = ofText a ++ ofText b := by
  obtain ⟨c, cs, hc⟩ := List.exists_cons_of_ne_nil (mt String.toList_eq_nil_iff.mp hne)
  have hbefore : Break a.toList w.toList := by
    refine .inr fun d hd => .inl (hw d ?_)
    exact List.mem_of_mem_head? hd
  have hbehind : Break (a ++ w).toList b.toList := by
    refine .inl fun d hd => .inl (hw d ?_)
    rw [String.toList_append, hc, List.getLast?_append_cons, ← hc] at hd
    exact List.mem_of_getLast? hd
  rw [ofText_append hbehind, ofText_append hbefore, ofText_of_blank hw, List.append_nil]

theorem isBlank_of_mem_space : ∀ c ∈ " ".toList, isBlank c := by
  rw [show " ".toList = [' '] from rfl]
  exact List.forall_mem_singleton.mpr (by decide)

/-- Texts with blanks between them have the tokens of each, in order. -/
theorem ofText_intercalate {w : String} (hw : ∀ c ∈ w.toList, isBlank c) (hne : w ≠ "")
    (ds : List String) : ofText (w.intercalate ds) = ds.flatMap ofText := by
  have hnil : ofText "" = [] := by decide
  induction ds with
  | nil => rw [String.intercalate_nil, hnil, List.flatMap_nil]
  | cons d ds ih =>
    cases ds with
    | nil => simp
    | cons e ds => rw [String.intercalate_cons_cons, ofText_apart hw hne, ih, ← List.flatMap_cons]

/-- Tokens that are joined by blanks are the tokens of the text. -/
theorem ofText_intercalate_of_isWhole {w : String} (hw : ∀ c ∈ w.toList, isBlank c) (hne : w ≠ "")
    {ts : List Token} (hts : ∀ t ∈ ts, t.IsWhole) : ofText (w.intercalate ts) = ts := by
  rw [ofText_intercalate hw hne]
  induction ts with
  | nil => rfl
  | cons t ts ih =>
    obtain ⟨ht, hts⟩ := List.forall_mem_cons.mp hts
    rw [List.flatMap_cons, ofText_of_isWhole ht, ih hts, List.singleton_append]

private theorem Layout.blank_cons {ts : List Token} (hc : isBlank c) (h : Layout ts cs) :
    Layout ts (c :: cs) := by
  cases h with
  | blank hg => exact .blank (List.forall_mem_cons.mpr ⟨hc, hg⟩)
  | @token t ts gap cs hg hb h =>
    have hgap : ∀ d ∈ c :: gap, isBlank d := List.forall_mem_cons.mpr ⟨hc, hg⟩
    exact .token hgap hb h

private theorem Layout.close (word : List Char) {ts : List Token} (h : Layout ts cs)
    (hb : Break word.reverse cs) :
    Layout ((closeWord word).map String.ofList ++ ts) (word.reverse ++ cs) := by
  cases word with
  | nil => exact h
  | cons c word =>
    have hl : (String.ofList (c :: word).reverse).toList = (c :: word).reverse :=
      String.toList_ofList
    have hgap : ∀ d ∈ ([] : List Char), isBlank d := fun d hd => (List.not_mem_nil hd).elim
    have ht := Layout.token (t := String.ofList (c :: word).reverse) hgap (by rwa [hl]) h
    rwa [hl] at ht

private theorem layout_scan (word cs : List Char) :
    Layout ((scan word cs).map String.ofList) (word.reverse ++ cs) := by
  -- each token ends where the scan closes it: behind its mark, or before a blank or a parenthesis
  fun_induction scan word cs with
  | case1 word =>
    have hn : Layout [] [] := .blank fun d hd => (List.not_mem_nil hd).elim
    have h := hn.close word (.inr fun d hd => by cases hd)
    rwa [List.append_nil] at h
  | case2 word c cs hb ih =>
    rw [List.map_append]
    refine (ih.blank_cons hb).close word (.inr fun d hd => ?_)
    cases hd
    exact .inl hb
  | case3 word c cs hb hp ih =>
    have hc : Layout (([c] :: scan [] cs).map String.ofList) (c :: cs) :=
      ih.close [c] (.inl fun d hd => by cases hd; exact .inr (List.mem_append_left ['\x27'] hp))
    rw [List.map_append]
    refine hc.close word (.inr fun d hd => ?_)
    cases hd
    exact .inr hp
  | case4 word cs hb hp ih =>
    have hm : Break ('\x27' :: word).reverse cs := .inl fun d hd => by
      rw [List.getLast?_reverse] at hd
      cases hd
      exact .inr (by decide)
    simpa using ih.close ('\x27' :: word) hm
  | case5 word c cs hb hp hq ih => simpa using ih

/-- Every text sets out its tokens. -/
theorem layout_ofText (source : String) : Layout (ofText source) source.toList := by
  rw [ofText_eq_scan]
  exact layout_scan [] source.toList

end DynamicLisp.Token
