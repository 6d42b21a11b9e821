/-!
# Lists of names without repetitions

`distinct` keeps the first of equal names; the order of a list is otherwise kept.
-/

namespace ModuleSearch.NameList

/-- Appends a name unless the list has it. -/
def appendNew (list : List String) (name : String) : List String :=
  if list.contains name then list else list ++ [name]

/-- Appends the names of the second list that are new. -/
def union (list names : List String) : List String := names.foldl appendNew list

def distinct (names : List String) : List String := union [] names

theorem union_append (list a b : List String) : union list (a ++ b) = union (union list a) b :=
  List.foldl_append

theorem mem_appendNew {list : List String} {name other : String} :
    other ∈ appendNew list name ↔ other ∈ list ∨ other = name := by
  unfold appendNew
  split
  · rename_i h
    have : name ∈ list := by simpa using h
    grind
  · simp

theorem mem_union {list names : List String} {name : String} :
    name ∈ union list names ↔ name ∈ list ∨ name ∈ names := by
  induction names generalizing list with
  | nil => simp [union]
  | cons first rest ih =>
    have := @ih (appendNew list first)
    simp only [union, List.foldl_cons] at this ⊢
    rw [this, mem_appendNew, List.mem_cons, or_assoc]

theorem mem_distinct {names : List String} {name : String} :
    name ∈ distinct names ↔ name ∈ names := by
  simp [distinct, mem_union]

theorem nodup_appendNew {list : List String} (h : list.Nodup) (name : String) :
    (appendNew list name).Nodup := by
  unfold appendNew
  split
  · exact h
  · rename_i hn
    have hn : name ∉ list := by simpa using hn
    rw [List.nodup_append]
    exact ⟨h, by simp, fun a ha b hb he => hn (by simp_all)⟩

theorem nodup_union {list : List String} (h : list.Nodup) (names : List String) :
    (union list names).Nodup := by
  induction names generalizing list with
  | nil => exact h
  | cons first rest ih => exact ih (nodup_appendNew h first)

theorem nodup_distinct (names : List String) : (distinct names).Nodup :=
  nodup_union List.nodup_nil names

theorem distinct_append (a b : List String) : distinct (a ++ b) = union (distinct a) b :=
  union_append [] a b

end ModuleSearch.NameList
