import Mathlib.Data.List.TakeWhile
import ModuleSearch.Text.Blank
import ModuleSearch.Text.Cut

/-!
# Lines and what stands on them

A line feed ends a line, and a carriage return right before it does not belong to the line:
`lines_append_feed`, `lines_append_return`. What is left of a line without its comment and without
the blanks at its ends is said by `cut_fst_eq_iff` and `trim_eq_iff`.
-/

namespace ModuleSearch.Text

variable {sep : Char} {text before inner front back line x y : List Char}

/-! ## Lines -/

theorem dropReturn_append_return (line : List Char) : dropReturn (line ++ ['\r']) = line := by
  rw [dropReturn, List.getLast?_concat, if_pos rfl, List.dropLast_concat]

theorem dropReturn_of_not_mem (h : '\r' ∉ line) : dropReturn line = line :=
  if_neg fun hlast => h (List.mem_of_getLast? hlast)

/-- Only a carriage return at the end is dropped. -/
theorem dropReturn_cases (line : List Char) :
    line = dropReturn line ∨ line = dropReturn line ++ ['\r'] := by
  by_cases h : line.getLast? = some '\r'
  · obtain ⟨front, rfl⟩ := List.getLast?_eq_some_iff.mp h
    rw [dropReturn_append_return]
    exact .inr rfl
  · rw [dropReturn, if_neg h]
    exact .inl rfl

/-- The pieces before others are whole lines. -/
theorem lineList_append (front : List (List Char)) {back : List (List Char)} (h : back ≠ []) :
    lineList (front ++ back) = front.map dropReturn ++ lineList back := by
  induction front with
  | nil => rfl
  | cons line rest ih =>
      obtain ⟨second, others, heq⟩ :=
        List.exists_cons_of_ne_nil (List.append_ne_nil_of_right_ne_nil rest h)
      rw [List.cons_append, heq, lineList, ← heq, ih]
      · rfl
      · simp

theorem lines_append_feed (x y : List Char) :
    lines (x ++ '\n' :: y) = (x.splitOn '\n').map dropReturn ++ lines y := by
  rw [lines, List.splitOn_append_cons_self, lineList_append _ (List.splitOn_ne_nil '\n' y), lines]

/-- A line feed ends a line. -/
theorem lines_cons_feed (h : '\n' ∉ line) (hreturn : '\r' ∉ line) (rest : List Char) :
    lines (line ++ '\n' :: rest) = line :: lines rest := by
  rw [lines_append_feed, List.splitOn_eq_singleton h, List.map_singleton,
    dropReturn_of_not_mem hreturn, List.singleton_append]

/-- A carriage return before the line feed does not belong to the line. -/
theorem lines_cons_return (h : '\n' ∉ line) (rest : List Char) :
    lines (line ++ '\r' :: '\n' :: rest) = line :: lines rest := by
  have htext : line ++ '\r' :: '\n' :: rest = (line ++ ['\r']) ++ '\n' :: rest := by simp
  have hline : '\n' ∉ line ++ ['\r'] := by simpa using h
  rw [htext, lines_append_feed, List.splitOn_eq_singleton hline, List.map_singleton,
    dropReturn_append_return, List.singleton_append]

/-! ## Comments -/

theorem cut_fst (sep : Char) (text : List Char) : sep ∉ (cut sep text).1 ∧
    (text = (cut sep text).1 ∨ ∃ after, text = (cut sep text).1 ++ sep :: after) := by
  induction text with
  | nil => simp
  | cons c rest ih =>
      by_cases hc : c = sep
      · subst hc
        rw [cut_cons_self]
        simp
      · obtain ⟨hmem, hrest⟩ := ih
        rw [cut_cons_ne hc]
        refine ⟨by simp [Ne.symm hc, hmem], ?_⟩
        obtain hrest | ⟨after, hrest⟩ := hrest
        · exact .inl (congrArg (c :: ·) hrest)
        · exact .inr ⟨after, congrArg (c :: ·) hrest⟩

/-- What stands before the first `sep` if there is one, else all of the text. -/
theorem cut_fst_eq_iff : (cut sep text).1 = before ↔
    sep ∉ before ∧ (text = before ∨ ∃ after, text = before ++ sep :: after) := by
  constructor
  · rintro rfl
    exact cut_fst sep text
  · rintro ⟨hmem, rfl | ⟨after, rfl⟩⟩
    · rw [cut_of_not_mem hmem]
    · rw [cut_append hmem]

/-! ## Blanks -/

theorem trimStart_append (h : ∀ c ∈ front, isBlank c = true)
    (hinner : ∀ c ∈ inner.head?, isBlank c = false) : trimStart (front ++ inner) = inner := by
  rw [trimStart, List.dropWhile_append_of_pos h]
  cases inner with
  | nil => rfl
  | cons c rest => exact List.dropWhile_cons_of_neg (by simpa using hinner c rfl)

theorem trimStart_eq_iff : trimStart text = inner ↔ (∀ c ∈ inner.head?, isBlank c = false) ∧
    ∃ front, text = front ++ inner ∧ ∀ c ∈ front, isBlank c = true := by
  constructor
  · rintro rfl
    refine ⟨fun c hc => ?_, text.takeWhile isBlank, List.takeWhile_append_dropWhile.symm,
      fun c hc => List.mem_takeWhile_imp hc⟩
    have hhead := List.head?_dropWhile_not isBlank text
    rw [Option.mem_def, trimStart] at hc
    rwa [hc] at hhead
  · rintro ⟨hinner, front, rfl, hfront⟩
    exact trimStart_append hfront hinner

theorem trimEnd_eq_iff : trimEnd text = inner ↔ (∀ c ∈ inner.getLast?, isBlank c = false) ∧
    ∃ back, text = inner ++ back ∧ ∀ c ∈ back, isBlank c = true := by
  have hreverse : trimEnd text = inner ↔ trimStart text.reverse = inner.reverse := by
    rw [trimEnd, trimStart, List.reverse_eq_iff]
  rw [hreverse, trimStart_eq_iff, List.head?_reverse]
  refine and_congr_right fun _ => ?_
  constructor
  · rintro ⟨front, htext, hfront⟩
    refine ⟨front.reverse, ?_, by simpa using hfront⟩
    rw [← List.reverse_reverse text, htext]
    simp
  · rintro ⟨back, rfl, hback⟩
    exact ⟨back.reverse, by simp, by simpa using hback⟩

/-- Neither the first nor the last character is a blank. -/
def IsTrimmed (text : List Char) : Prop :=
  (∀ c ∈ text.head?, isBlank c = false) ∧ ∀ c ∈ text.getLast?, isBlank c = false

/-- What is left of a text stands between blanks. -/
theorem trim_eq_iff : trim text = inner ↔ IsTrimmed inner ∧ ∃ front back,
    text = front ++ inner ++ back ∧ (∀ c ∈ front, isBlank c = true) ∧
      ∀ c ∈ back, isBlank c = true := by
  rw [trim, trimEnd_eq_iff, IsTrimmed]
  constructor
  · rintro ⟨hlast, back, htext, hback⟩
    obtain ⟨hhead, front, rfl, hfront⟩ := trimStart_eq_iff.mp htext
    refine ⟨⟨fun c hc => hhead c ?_, hlast⟩, front, back, by simp, hfront, hback⟩
    rw [Option.mem_def] at hc ⊢
    rw [List.head?_append, hc, Option.some_or]
  · rintro ⟨⟨hhead, hlast⟩, front, back, rfl, hfront, hback⟩
    cases inner with
    | nil =>
        have hblank : trimStart (front ++ [] ++ back) = [] :=
          List.dropWhile_eq_nil_iff.mpr (by simpa [or_imp, forall_and] using ⟨hfront, hback⟩)
        exact ⟨hlast, [], by simpa using hblank, by simp⟩
    | cons c rest =>
        refine ⟨hlast, back, ?_, hback⟩
        rw [List.append_assoc]
        exact trimStart_append hfront hhead

end ModuleSearch.Text
