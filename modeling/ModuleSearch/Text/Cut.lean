/-!
# Cutting text at a character

A text is a list of characters. `cut` divides it at the first occurrence of a character,
`cutLast` at the last one; `lines` gives its lines without their ends.
-/

namespace ModuleSearch.Text

/-- What stands before the first `sep`, and what stands after it if there is one. -/
def cut (sep : Char) : List Char → List Char × Option (List Char)
  | [] => ([], none)
  | c :: rest =>
    if c = sep then ([], some rest)
    else
      let (before, after) := cut sep rest
      (c :: before, after)

/-- What stands before and after the first `sep`. -/
def cut? (sep : Char) (text : List Char) : Option (List Char × List Char) :=
  match cut sep text with
  | (before, some after) => some (before, after)
  | (_, none) => none

/-- What stands before and after the last `sep`. -/
def cutLast? (sep : Char) (text : List Char) : Option (List Char × List Char) :=
  (cut? sep text.reverse).map fun (after, before) => (before.reverse, after.reverse)

def dropPrefix? : List Char → List Char → Option (List Char)
  | [], text => some text
  | _ :: _, [] => none
  | p :: start, c :: text => if p = c then dropPrefix? start text else none

def dropSuffix? (ending text : List Char) : Option (List Char) :=
  (dropPrefix? ending.reverse text.reverse).map List.reverse

/-- Removes the carriage return of a line that a line feed ended. -/
def dropReturn (line : List Char) : List Char :=
  if line.getLast? = some '\r' then line.dropLast else line

/-- The lines of the pieces between line feeds: what follows the last line feed counts only if
there is something, and keeps a carriage return at its end. -/
def lineList : List (List Char) → List (List Char)
  | [] => []
  | [last] => if last.isEmpty then [] else [last]
  | line :: rest => dropReturn line :: lineList rest

/-- Lines end with a line feed, alone or after a carriage return. -/
def lines (text : List Char) : List (List Char) := lineList (text.splitOn '\n')

def replace (old new : Char) (text : List Char) : List Char :=
  text.map fun c => if c = old then new else c

@[simp] theorem cut_nil (sep : Char) : cut sep [] = ([], none) := rfl

theorem cut_cons_self (sep : Char) (rest : List Char) : cut sep (sep :: rest) = ([], some rest) := by
  simp [cut]

theorem cut_cons_ne {sep c : Char} (h : c ≠ sep) (rest : List Char) :
    cut sep (c :: rest) = (c :: (cut sep rest).1, (cut sep rest).2) := by
  simp [cut, h]

theorem cut_of_not_mem {sep : Char} {text : List Char} (h : sep ∉ text) :
    cut sep text = (text, none) := by
  induction text with
  | nil => rfl
  | cons c rest ih =>
    obtain ⟨hc, hrest⟩ : sep ≠ c ∧ sep ∉ rest := by simpa using h
    rw [cut_cons_ne (Ne.symm hc), ih hrest]

/-- A text without `sep` before a `sep` is the part before it. -/
theorem cut_append {sep : Char} {before : List Char} (h : sep ∉ before) (after : List Char) :
    cut sep (before ++ sep :: after) = (before, some after) := by
  induction before with
  | nil => simp [cut]
  | cons c rest ih =>
    have hc : c ≠ sep := fun he => h (by simp [he])
    rw [List.cons_append, cut_cons_ne hc, ih fun hr => h (List.mem_cons_of_mem _ hr)]

/-- A text is cut at the `sep` before which there is none. -/
theorem cut?_eq_some_iff {sep : Char} {text before after : List Char} :
    cut? sep text = some (before, after) ↔ sep ∉ before ∧ text = before ++ sep :: after := by
  constructor
  · intro h
    induction text generalizing before with
    | nil => simp [cut?] at h
    | cons c rest ih =>
      by_cases hc : c = sep
      · subst hc
        obtain ⟨rfl, rfl⟩ : [] = before ∧ rest = after := by simpa [cut?, cut_cons_self] using h
        simp
      · rw [cut?, cut_cons_ne hc] at h
        rcases hcut : cut sep rest with ⟨front, _ | back⟩
        · simp [hcut] at h
        · obtain ⟨rfl, rfl⟩ : c :: front = before ∧ back = after := by simpa [hcut] using h
          obtain ⟨hfront, hrest⟩ := ih (by rw [cut?, hcut])
          simp [Ne.symm hc, hfront, hrest]
  · rintro ⟨h, rfl⟩
    rw [cut?, cut_append h]

/-- A text is cut at the `sep` after which there is none. -/
theorem cutLast?_eq_some_iff {sep : Char} {text before after : List Char} :
    cutLast? sep text = some (before, after) ↔ sep ∉ after ∧ text = before ++ sep :: after := by
  simp only [cutLast?, Option.map_eq_some_iff, Prod.exists, Prod.mk.injEq, cut?_eq_some_iff]
  constructor
  · rintro ⟨back, front, ⟨hback, htext⟩, rfl, rfl⟩
    refine ⟨by simpa using hback, ?_⟩
    rw [← List.reverse_reverse text, htext]
    simp
  · rintro ⟨hafter, rfl⟩
    exact ⟨after.reverse, before.reverse, by simpa using hafter, by simp, by simp⟩

/-- What is put before a text without `sep` belongs to the part before the first `sep`. -/
theorem cut?_append {sep : Char} {front : List Char} (h : sep ∉ front) (text : List Char) :
    cut? sep (front ++ text) = (cut? sep text).map fun p => (front ++ p.1, p.2) := by
  induction front with
  | nil => simp
  | cons c rest ih =>
    obtain ⟨hc, hrest⟩ : sep ≠ c ∧ sep ∉ rest := by simpa using h
    have ih := ih hrest
    rw [List.cons_append, cut?, cut_cons_ne (Ne.symm hc)]
    rw [cut?] at ih
    rcases hcut : cut sep (rest ++ text) with ⟨before, _ | after⟩ <;>
      cases htext : cut? sep text <;> simp_all

theorem cutLast?_append {sep : Char} {ending : List Char} (h : sep ∉ ending) (text : List Char) :
    cutLast? sep (text ++ ending) =
      (cutLast? sep text).map fun p => (p.1, p.2 ++ ending) := by
  have hreverse : sep ∉ ending.reverse := by simpa using h
  rw [cutLast?, cutLast?, List.reverse_append, cut?_append hreverse]
  cases cut? sep text.reverse <;> simp

theorem dropPrefix?_eq_some_iff {start text rest : List Char} :
    dropPrefix? start text = some rest ↔ text = start ++ rest := by
  induction start generalizing text with
  | nil => simp [dropPrefix?, eq_comm]
  | cons p start ih =>
    cases text with
    | nil => simp [dropPrefix?]
    | cons c text =>
      by_cases hp : p = c
      · simp [dropPrefix?, hp, ih]
      · simp [dropPrefix?, hp, Ne.symm hp]

theorem dropSuffix?_eq_some_iff {ending text front : List Char} :
    dropSuffix? ending text = some front ↔ text = front ++ ending := by
  simp only [dropSuffix?, Option.map_eq_some_iff, dropPrefix?_eq_some_iff]
  constructor
  · rintro ⟨back, htext, rfl⟩
    rw [← List.reverse_reverse text, htext]
    simp
  · rintro rfl
    exact ⟨front.reverse, by simp, by simp⟩

/-- A piece between separators holds none. -/
theorem not_of_mem_splitOnP {p : Char → Bool} {text piece : List Char}
    (h : piece ∈ text.splitOnP p) : ∀ c ∈ piece, p c = false := by
  induction text generalizing piece with
  | nil =>
    obtain rfl : piece = [] := by simpa using h
    simp
  | cons c rest ih =>
    obtain ⟨first, others, hrest⟩ := List.exists_cons_of_ne_nil (List.splitOnP_ne_nil p rest)
    rw [List.splitOnP_cons_eq_if_modifyHead] at h
    rw [hrest] at h ih
    split at h
    · rcases List.mem_cons.1 h with rfl | h
      · simp
      · exact ih h
    · rename_i hc
      rcases List.mem_cons.1 h with rfl | h
      · simpa [hc] using ih (List.mem_cons_self ..)
      · exact ih (List.mem_cons_of_mem _ h)

theorem not_mem_of_mem_splitOn {sep : Char} {text piece : List Char} (h : piece ∈ text.splitOn sep) :
    sep ∉ piece := by
  intro hsep
  simpa using not_of_mem_splitOnP h sep hsep

/-- What is joined holds the separator and what its pieces hold. -/
theorem eq_or_mem_of_mem_intercalate {sep c : Char} {pieces : List (List Char)}
    (h : c ∈ [sep].intercalate pieces) : c = sep ∨ ∃ piece ∈ pieces, c ∈ piece := by
  induction pieces with
  | nil => cases h
  | cons first rest ih =>
    cases rest with
    | nil => exact .inr ⟨first, by simp, by rwa [List.intercalate_singleton] at h⟩
    | cons second others =>
      rw [List.intercalate_cons_cons, List.mem_append, List.mem_append] at h
      rcases h with (h | h) | h
      · exact .inr ⟨first, by simp, h⟩
      · exact .inl (List.mem_singleton.mp h)
      · rcases ih h with hsep | ⟨piece, hpiece, hmem⟩
        · exact .inl hsep
        · exact .inr ⟨piece, List.mem_cons_of_mem _ hpiece, hmem⟩

end ModuleSearch.Text
