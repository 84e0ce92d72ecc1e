import Mathlib
import DynamicLisp.Proofs.Reading.Tokens

/-! Tokens from left to right, and tokens part by part. Main statements: the tokens of a text are
those that a machine with a buffer gives out as it reads the text once; and the tokens of a text in
two parts are those of the parts exactly if no token goes on from one into the other. -/
namespace DynamicLisp.Token
open Text

/-! ### A machine with a buffer -/

/-- What the machine holds: the tokens given out so far, and the token begun. -/
structure Scanner where
  given : List Token
  buffer : String

namespace Scanner

/-- At first no token has been given out and none is begun. -/
def start : Scanner :=
  ⟨[], ""⟩

/-- Gives out a token. -/
def give (s : Scanner) (t : Token) : Scanner :=
  { s with given := s.given ++ [t] }

/-- Gives out the token begun, if it has any character. -/
def flush (s : Scanner) : Scanner :=
  if s.buffer = "" then s else { s.give s.buffer with buffer := "" }

/-- Adds a character to the token begun. -/
def keep (s : Scanner) (c : Char) : Scanner :=
  { s with buffer := s.buffer.push c }

/-- Reads a character. A blank ends the token begun; so does a parenthesis, which is given out after
it; a quote mark ends the token to which it is added, and any other character is only added. -/
def read (s : Scanner) (c : Char) : Scanner :=
  if isBlank c then s.flush
  else if c = '(' ∨ c = ')' then s.flush.give (String.singleton c)
  else if c = '\x27' then (s.keep c).flush
  else s.keep c

/-- The tokens given out when a text has been read and the last token is ended. -/
def run (source : String) : List Token :=
  (source.toList.foldl read start).flush.given

variable (s : Scanner) (c : Char)

private theorem given_flush :
    s.flush.given = s.given ++ (closeWord s.buffer.toList.reverse).map String.ofList := by
  by_cases hb : s.buffer = ""
  · simp [flush, hb, closeWord]
  · simp [flush, hb, give, closeWord]

@[simp]
private theorem buffer_flush : s.flush.buffer = "" := by
  by_cases hb : s.buffer = ""
  · rw [flush, if_pos hb, hb]
  · rw [flush, if_neg hb]

/-- What is read after a state comes to the tokens given out before and those of a scan that goes on
from the token begun. -/
private theorem given_foldl_read (cs : List Char) :
    (cs.foldl read s).flush.given =
      s.given ++ (scan s.buffer.toList.reverse cs).map String.ofList := by
  induction cs generalizing s with
  | nil => exact given_flush s
  | cons c cs ih =>
    rw [List.foldl_cons, ih, read, scan]
    by_cases hb : isBlank c
    · rw [if_pos hb, if_pos hb, given_flush, buffer_flush]
      simp
    · rw [if_neg hb, if_neg hb]
      by_cases hp : c ∈ ['(', ')']
      · have hp' : c = '(' ∨ c = ')' := by simpa using hp
        rw [if_pos hp', if_pos hp]
        simp [give, given_flush]
      · have hp' : ¬ (c = '(' ∨ c = ')') := by simpa using hp
        rw [if_neg hp', if_neg hp]
        by_cases hq : c = '\x27'
        · rw [if_pos hq, if_pos hq, given_flush, buffer_flush]
          simp [keep]
        · rw [if_neg hq, if_neg hq]
          simp [keep]

theorem run_eq_ofText (source : String) : run source = ofText source := by
  rw [run, given_foldl_read, ofText_eq_scan]
  rfl

end Scanner

/-! ### Marks set off one after the other -/

/-- A row of characters in which one is replaced wherever it stands. -/
def substitute (c : Char) (row cs : List Char) : List Char :=
  cs.flatMap fun d => if d = c then row else [d]

/-- A text in which first the opening parentheses are set off by spaces, then the closing ones, and
at last the quote marks from what follows them. -/
def setOff (cs : List Char) : List Char :=
  let opened := substitute '(' [' ', '(', ' '] cs
  let closed := substitute ')' [' ', ')', ' '] opened
  substitute '\x27' ['\x27', ' '] closed

/-- What is put in for one mark has no other mark in it, so all are set off in one pass. -/
theorem setOff_eq (cs : List Char) : setOff cs = cs.flatMap pad := by
  unfold setOff substitute
  rw [List.flatMap_assoc, List.flatMap_assoc]
  refine List.flatMap_congr fun c _ => ?_
  by_cases ho : c = '('
  · subst ho
    decide
  · by_cases hc : c = ')'
    · subst hc
      decide
    · by_cases hq : c = '\x27' <;> simp [ho, hc, hq, pad]

/-! ### What the tokens are made of -/

variable {word cs ds : List Char} {c d : Char}

private theorem flatten_closeWord (word : List Char) :
    (closeWord word).flatten = word.reverse := by
  cases word <;> simp [closeWord]

/-- A scan loses blanks and nothing else. -/
theorem flatten_scan (word cs : List Char) :
    (scan word cs).flatten = word.reverse ++ cs.filter fun c => !isBlank c := by
  fun_induction scan word cs with
  | case1 word => simp [flatten_closeWord]
  | case2 word c cs hb ih => simp [flatten_closeWord, ih, hb]
  | case3 word c cs hb hp ih => simp [flatten_closeWord, ih, hb]
  | case4 word cs hb hp ih => simp [flatten_closeWord, ih, hb]
  | case5 word c cs hb hp hq ih => simp [ih, hb]

theorem join_ofText (source : String) :
    String.join (ofText source) = String.ofList (source.toList.filter fun c => !isBlank c) := by
  have hid : (scan [] source.toList).map (String.toList ∘ String.ofList) = scan [] source.toList :=
    (List.map_congr_left fun _ _ => String.toList_ofList).trans (List.map_id _)
  rw [String.join_eq, ofText_eq_scan, List.map_map, hid, flatten_scan]
  rfl

/-- One pass over a text with a buffer finds its tokens, which are also the words of the text in
which parentheses and quote marks have been set off. Without its blanks the text is all tokens in a
row; each has a character, a parenthesis is a token by itself, and a quote mark stands only at the
end of one. -/
theorem tokens_in_one_pass (source : String) :
    Scanner.run source = ofText source ∧
    (words (setOff source.toList)).map String.ofList = ofText source ∧
    String.join (ofText source) = String.ofList (source.toList.filter fun c => !isBlank c) ∧
    ∀ t ∈ ofText source, t ≠ "" ∧ (t = "(" ∨ t = ")" ∨ '(' ∉ t.toList ∧ ')' ∉ t.toList) ∧
      '\x27' ∉ t.toList.dropLast := by
  refine ⟨Scanner.run_eq_ofText source, ?_, join_ofText source, fun t ht => ?_⟩
  · rw [setOff_eq]
    rfl
  · rcases isWhole_of_mem_ofText ht with rfl | rfl | h
    · decide
    · decide
    · have hne : t ≠ "" := mt String.toList_eq_nil_iff.mpr h.ne_nil
      have hopen : '(' ∉ t.toList := fun hm => (h.solid _ hm).2 (by decide)
      have hclose : ')' ∉ t.toList := fun hm => (h.solid _ hm).2 (by decide)
      exact ⟨hne, .inr (.inr ⟨hopen, hclose⟩), h.mark⟩

/-! Quote marks in a row, one in front of a list and one behind a name. -/

theorem tokens_in_one_pass_marks :
    Scanner.run "''(a'\u3000b)" = ["'", "'", "(", "a'", "b", ")"] ∧
      "a'" ∈ ofText "''(a'\u3000b)" ∧ '\x27' ∉ "a'".toList.dropLast := by
  have ht : ofText "''(a'\u3000b)" = ["'", "'", "(", "a'", "b", ")"] := by cbv
  have hm : "a'" ∈ ofText "''(a'\u3000b)" := by
    rw [ht]
    decide
  obtain ⟨hrun, _, _, hmark⟩ := tokens_in_one_pass "''(a'\u3000b)"
  exact ⟨hrun.trans ht, hm, (hmark _ hm).2.2⟩

/-! ### Texts in parts -/

/-- How many tokens there are does not depend on the characters of the token begun. -/
private theorem length_scan_cons (c d : Char) (word word' cs : List Char) :
    (scan (c :: word) cs).length = (scan (d :: word') cs).length := by
  induction cs generalizing c d word word' with
  | nil => rfl
  | cons e cs ih =>
    have hclose : ∀ b : Char, ∀ bs : List Char, (closeWord (b :: bs)).length = 1 := fun _ _ => rfl
    rw [scan, scan]
    split
    · rw [List.length_append, List.length_append, hclose, hclose]
    · split
      · rw [List.length_append, List.length_append, hclose, hclose]
      · split
        · rw [List.length_append, List.length_append, hclose, hclose]
        · exact ih e e (c :: word) (d :: word')

/-- A character that neither ends a token nor stands by itself is added to the token begun, if there
is one, and else begins one: either way there is one token more than behind it. -/
private theorem length_scan_of_not_ends (hd : ¬ (isBlank d ∨ d ∈ ['(', ')']))
    (word cs : List Char) : (scan word (d :: cs)).length = (scan [] (d :: cs)).length := by
  obtain ⟨hb, hp⟩ := not_or.mp hd
  rw [scan, scan, if_neg hb, if_neg hb, if_neg hp, if_neg hp]
  by_cases hq : d = '\x27'
  · rw [if_pos hq, if_pos hq, List.length_append, List.length_append]
    rfl
  · rw [if_neg hq, if_neg hq]
    exact length_scan_cons d d word [] cs

private theorem length_scan_append (hc : ¬ (isBlank c ∨ c ∈ ['(', ')', '\x27']))
    (hd : ¬ (isBlank d ∨ d ∈ ['(', ')'])) (word cs ds : List Char) :
    (scan word (cs ++ [c])).length + (scan [] (d :: ds)).length =
      (scan word (cs ++ c :: d :: ds)).length + 1 := by
  induction cs generalizing word with
  | nil =>
    obtain ⟨hb, hp⟩ := not_or.mp hc
    have hp' : c ∉ ['(', ')'] := fun hm => hp (List.mem_append_left ['\x27'] hm)
    have hq : c ≠ '\x27' := fun he => hp (by simp [he])
    have hinner : ∀ es, scan word (c :: es) = scan (c :: word) es := fun es => by
      rw [scan, if_neg hb, if_neg hp', if_neg hq]
    rw [List.nil_append, List.nil_append, hinner, hinner, length_scan_of_not_ends hd (c :: word),
      Nat.add_comm]
    rfl
  | cons b cs ih =>
    obtain ⟨ws, begun, hs⟩ := scan_cons word b
    rw [List.cons_append, List.cons_append, hs, hs, List.length_append, List.length_append,
      Nat.add_assoc, ih, Nat.add_assoc]

/-- A token that goes on from one part into the other is one token of the whole text, and two where
the parts are read by themselves. -/
theorem length_scan_append_of_not_break (h : ¬ Break cs ds) :
    (scan [] cs).length + (scan [] ds).length = (scan [] (cs ++ ds)).length + 1 := by
  obtain ⟨hlast, hhead⟩ := not_or.mp h
  push Not at hlast hhead
  obtain ⟨c, hc, hinner⟩ := hlast
  obtain ⟨d, hd, hgoes⟩ := hhead
  obtain ⟨bs, rfl⟩ := List.getLast?_eq_some_iff.mp hc
  obtain ⟨es, rfl⟩ := List.head?_eq_some_iff.mp hd
  rw [List.append_assoc]
  exact length_scan_append (not_or.mpr hinner) (not_or.mpr hgoes) [] bs es

theorem ofText_append_iff {s t : String} :
    ofText (s ++ t) = ofText s ++ ofText t ↔ Break s.toList t.toList := by
  refine ⟨fun h => by_contra fun hb => ?_, ofText_append⟩
  have hl := length_scan_append_of_not_break hb
  have he := congrArg List.length h
  simp only [ofText_eq_scan, List.length_append, List.length_map, String.toList_append] at he
  omega

/-- Layout alone decides how a text falls into tokens. A text in two parts has the tokens of the
parts exactly if the first part is empty or ends in a blank, a parenthesis or a quote mark, or the
second is empty or begins with a blank or a parenthesis; and the tokens of a text, joined by any
blanks, are the tokens of what is so made. -/
theorem tokens_of_parts :
    (∀ s t : String, ofText (s ++ t) = ofText s ++ ofText t ↔ Break s.toList t.toList) ∧
    ∀ s w : String, w ≠ "" → (∀ c ∈ w.toList, isBlank c) →
      ofText (w.intercalate (ofText s)) = ofText s := by
  refine ⟨fun s t => ofText_append_iff, fun s w hne hw => ?_⟩
  exact ofText_intercalate_of_isWhole hw hne fun t ht => isWhole_of_mem_ofText ht

/-! A quote mark ends the name in front of it, and goes with a name in front of it. -/

theorem tokens_of_parts_marked :
    ofText ("(a'" ++ "b)") = ofText "(a'" ++ ofText "b)" ∧
      ofText ("(a" ++ "'b)") ≠ ofText "(a" ++ ofText "'b)" ∧
      ofText ("\n\t".intercalate (ofText "(a'b)")) = ["(", "a'", "b", ")"] := by
  obtain ⟨hparts, hjoined⟩ := tokens_of_parts
  have ht : ofText "(a'b)" = ["(", "a'", "b", ")"] := by cbv
  have hw : ∀ c ∈ "\n\t".toList, isBlank c := by
    rw [show "\n\t".toList = ['\n', '\t'] from rfl]
    exact List.forall_mem_cons.mpr ⟨by decide, List.forall_mem_singleton.mpr (by decide)⟩
  refine ⟨(hparts _ _).mpr ?_, mt (hparts _ _).mp ?_, (hjoined _ _ (by decide) hw).trans ht⟩
  · exact .inl fun c hc => .inr (by cases hc; decide)
  · rintro (h | h)
    · exact absurd (h 'a' rfl) (by decide)
    · exact absurd (h '\x27' rfl) (by decide)

end DynamicLisp.Token
