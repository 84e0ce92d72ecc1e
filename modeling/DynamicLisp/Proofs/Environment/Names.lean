import Mathlib
import DynamicLisp.Frame

/-! Names of a frame. A frame lists its names in the order in which they were first defined, without
repetition, however they were defined: one by one or several at once, where all are bound up to the
first that is no symbol. -/
namespace DynamicLisp

theorem Value.isSymbol_or (v : Value) : (∃ i x, v = .symbol i x) ∨ v.isSymbol = false := by
  cases v with
  | symbol i x => exact .inl ⟨i, x, rfl⟩
  | _ => exact .inr rfl

namespace Frame

/-- The names at the front of some items, up to the first that is no symbol. -/
def leadingNames : List (Value × Value) → List String
  | (.symbol _ x, _) :: items => x :: leadingNames items
  | _ => []

variable {f : Frame} {xs ys : List String} {x : String} {name v : Value}
  {items rest : List (Value × Value)}

theorem binds_define (f : Frame) (x y : String) (v : Value) :
    (f.define x v).binds y = (decide (y = x) || f.binds y) := by
  rw [binds, lookup?_define, binds]
  by_cases h : y = x <;> simp [h]

/-- A name that has come before is not listed again. -/
theorem eraseDups_insert (h : x ∈ xs) (ys : List String) :
    (xs ++ x :: ys).eraseDups = (xs ++ ys).eraseDups := by
  rw [List.eraseDups_append, List.eraseDups_append]
  have hr : (x :: ys).removeAll xs = ys.removeAll xs := by
    simp [List.removeAll, h]
  rw [hr]

theorem eraseDups_concat (xs : List String) (x : String) :
    (xs ++ [x]).eraseDups = if x ∈ xs then xs.eraseDups else xs.eraseDups ++ [x] := by
  split
  · next h => rw [eraseDups_insert h, List.append_nil]
  · next h =>
    have hr : [x].removeAll xs = [x] := by
      simp [List.removeAll, h]
    rw [List.eraseDups_append, hr]
    rfl

theorem nodup_eraseDups (xs : List String) : xs.eraseDups.Nodup := by
  induction xs using List.reverseRecOn with
  | nil => exact List.nodup_nil
  | append_singleton xs x ih =>
    rw [eraseDups_concat]
    split
    · exact ih
    · next h =>
      rw [← List.concat_eq_append]
      exact ih.concat fun hx => h (List.mem_eraseDups.mp hx)

/-- A definition comes after all earlier ones. -/
theorem names_define_eq (h : f.names = xs.eraseDups) (x : String) (v : Value) :
    (f.define x v).names = (xs ++ [x]).eraseDups := by
  rw [names_define, eraseDups_concat, h]
  simp only [List.mem_eraseDups]

theorem bindName_of_not_isSymbol (h : name.isSymbol = false) (f : Frame) (v : Value) :
    f.bindName name v = (do throw (.fault (.nameNotSymbol (← name.describe?)))) := by
  cases name with
  | symbol i x => cases h
  | _ => rfl

theorem exists_bindName_eq_error (h : name.isSymbol = false) (f : Frame) (v : Value) :
    ∃ e, f.bindName name v = .error e ∧
      ∀ text, name.describe? = .ok text → e = .fault (.nameNotSymbol text) := by
  rw [bindName_of_not_isSymbol h]
  cases name.describe? with
  | error e => exact ⟨e, rfl, fun _ ht => nomatch ht⟩
  | ok text =>
    refine ⟨_, rfl, fun t ht => ?_⟩
    cases ht
    rfl

theorem leadingNames_of_not_isSymbol (h : name.isSymbol = false) :
    leadingNames ((name, v) :: items) = [] := by
  cases name with
  | symbol i x => cases h
  | _ => rfl

theorem names_bindEach (h : f.names = xs.eraseDups) (items : List (Value × Value)) :
    (f.bindEach items).1.names = (xs ++ leadingNames items).eraseDups := by
  induction items generalizing f xs with
  | nil =>
    have hn : leadingNames [] = [] := rfl
    rw [bindEach, hn, List.append_nil, h]
  | cons item items ih =>
    obtain ⟨name, v⟩ := item
    rcases name.isSymbol_or with ⟨i, x, rfl⟩ | hs
    · have hx := ih (names_define_eq h x v)
      rw [List.append_assoc] at hx
      exact hx
    · obtain ⟨e, he, _⟩ := exists_bindName_eq_error hs f v
      rw [bindEach, he, leadingNames_of_not_isSymbol hs, List.append_nil]
      exact h

/-- Of an item whose name has come before, the name does not count. -/
private theorem eraseDups_skip (h : x ∈ xs) (i : Identity) (v : Value) :
    (xs ++ leadingNames (items ++ (.symbol i x, v) :: rest)).eraseDups =
      (xs ++ leadingNames (items ++ rest)).eraseDups := by
  induction items generalizing xs with
  | nil => exact eraseDups_insert h _
  | cons item items ih =>
    obtain ⟨name, w⟩ := item
    rcases name.isSymbol_or with ⟨j, y, rfl⟩ | hs
    · have hy := ih (List.mem_append_left [y] h)
      rw [List.append_assoc, List.append_assoc] at hy
      exact hy
    · rw [List.cons_append, List.cons_append, leadingNames_of_not_isSymbol hs,
        leadingNames_of_not_isSymbol hs]

private theorem add_cons (earlier item : Value × Value) (items : List (Value × Value)) :
    merge.add (earlier :: items) item = earlier :: merge.add items item ∨
      ∃ i j x, earlier.1 = .symbol i x ∧ item.1 = .symbol j x ∧
        merge.add (earlier :: items) item = (earlier.1, item.2) :: items := by
  rw [merge.add.eq_def]
  simp only
  split
  · next i x j y hx hy =>
    split
    · next he =>
      subst he
      exact .inr ⟨i, j, x, hx, hy, rfl⟩
    · exact .inl rfl
  · exact .inl rfl

private theorem eraseDups_add (item : Value × Value) :
    (xs ++ leadingNames (merge.add items item ++ rest)).eraseDups =
      (xs ++ leadingNames (items ++ item :: rest)).eraseDups := by
  induction items generalizing xs with
  | nil => rfl
  | cons earlier items ih =>
    obtain ⟨name, w⟩ := earlier
    rcases add_cons (name, w) item items with he | ⟨i, j, x, hx, hy, he⟩
    · rw [he, List.cons_append, List.cons_append]
      rcases name.isSymbol_or with ⟨i, x, rfl⟩ | hs
      · have hx : ((xs ++ [x]) ++ leadingNames (merge.add items item ++ rest)).eraseDups =
            ((xs ++ [x]) ++ leadingNames (items ++ item :: rest)).eraseDups := ih
        rw [List.append_assoc, List.append_assoc] at hx
        exact hx
      · rw [leadingNames_of_not_isSymbol hs, leadingNames_of_not_isSymbol hs]
    · obtain ⟨name', v⟩ := item
      cases hx
      cases hy
      have hmem : x ∈ xs ++ [x] := List.mem_append_right xs (.head [])
      have hskip : ((xs ++ [x]) ++ leadingNames (items ++ (.symbol j x, v) :: rest)).eraseDups =
          ((xs ++ [x]) ++ leadingNames (items ++ rest)).eraseDups := eraseDups_skip hmem j v
      rw [List.append_assoc, List.append_assoc] at hskip
      rw [he]
      exact hskip.symm

theorem names_update (h : f.names = xs.eraseDups) (items : List (Value × Value)) :
    (f.update items).1.names = (xs ++ leadingNames items).eraseDups := by
  -- what has been merged so far may be any row: the names in front of it are the same as unmerged
  have hm : ∀ acc : List (Value × Value),
      (xs ++ leadingNames (items.foldl merge.add acc)).eraseDups =
        (xs ++ leadingNames (acc ++ items)).eraseDups := by
    induction items with
    | nil => exact fun acc => by rw [List.foldl_nil, List.append_nil]
    | cons item items ih => exact fun acc => (ih (merge.add acc item)).trans (eraseDups_add item)
  rw [update, names_bindEach h]
  exact hm []

end Frame
end DynamicLisp
