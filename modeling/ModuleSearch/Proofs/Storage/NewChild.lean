import Mathlib.Data.Option.Defs
import ModuleSearch.Proofs.Path
import ModuleSearch.Storage.Basic

/-!
# One more child

Two storages of which the second has one more child in one directory. All questions on paths that
do not go through the child have the same answers, but for the listing of the directory itself,
which has the child in addition: `Storage.GainsChild`.
-/

open ModuleSearch.Path (IsName joined)

namespace ModuleSearch

/-- The path goes on with this name where it has come to the directory. -/
def Path.PassesThrough (leads : Path → Prop) (name : String) (p : Path) : Prop :=
  ∃ front back, p.parts = front ++ name.toList :: back ∧ leads ⟨joined (front ++ [[]])⟩

namespace Storage

/-- The same lies at the path, whatever lies below it. -/
structure SameAt (storage storage' : Storage) (p : Path) : Prop where
  isPresent : storage.isPresent p = storage'.isPresent p
  isDirectory : storage.isDirectory p = storage'.isDirectory p
  isFile : storage.isFile p = storage'.isFile p
  read : storage.read p = storage'.read p
  head : storage.head p = storage'.head p

/-- The second list has one more element. -/
def OneMore {α : Type} (a : α) (before after : List α) : Prop :=
  ∃ front back, before = front ++ back ∧ after = front ++ a :: back

/-- The second storage has one more child in a directory and is like the first one elsewhere.
`leads` tells the paths that lead to the directory. -/
structure GainsChild (storage storage' : Storage) (leads : Path → Prop) (name : String) :
    Prop where
  sameAt : ∀ p, ¬ p.PassesThrough leads name → storage.SameAt storage' p
  children_eq : ∀ p, ¬ p.PassesThrough leads name → ¬ leads p →
    storage.children p = storage'.children p
  oneMore : ∀ p, ¬ p.PassesThrough leads name → leads p →
    Option.Rel (OneMore (p.child name)) (storage.children p) (storage'.children p)
  /-- The child was not there before. -/
  unlisted : ∀ p children, ¬ p.PassesThrough leads name → storage.children p = some children →
    ∀ q ∈ children, ¬ q.PassesThrough leads name

end Storage

namespace Path

variable {p : Path} {part : List Char} {parts : List (List Char)} {leads : Path → Prop}
  {name : String}

theorem parts_child_ofName (p : Path) (hpart : IsName part) :
    ∃ front, (p.child (String.ofList part)).parts = front ++ [part] ∧
      (p.parts = front ∨ p.parts = front ++ [[]]) := by
  have hrelative : (Path.mk (String.ofList part)).isAbsolute = false := by
    simpa using isAbsolute_ofName hpart ""
  by_cases hp : p.text = ""
  · refine ⟨[], ?_, .inr ?_⟩
    · rw [child_of_empty hp hrelative, parts_ofName hpart]
      rfl
    · rw [parts, hp]
      rfl
  · obtain ⟨front, -, hchild, hfront⟩ := parts_child hp hrelative
    exact ⟨front, by rw [hchild, parts_ofName hpart], hfront⟩

/-- A child lies beyond what its directory lies beyond, or it is the new child itself. -/
theorem PassesThrough.of_child (hpart : IsName part)
    (h : (p.child (String.ofList part)).PassesThrough leads name) :
    p.PassesThrough leads name ∨ part = name.toList ∧
      ∃ front, (p.child (String.ofList part)).parts = front ++ [part] ∧
        (p.parts = front ∨ p.parts = front ++ [[]]) ∧ leads ⟨joined (front ++ [[]])⟩ := by
  obtain ⟨front, back, hparts, hleads⟩ := h
  obtain ⟨above, hchild, habove⟩ := parts_child_ofName p hpart
  rcases List.eq_nil_or_concat back with rfl | ⟨between, last, rfl⟩
  · obtain ⟨rfl, hname⟩ := List.append_inj' (hchild.symm.trans hparts) rfl
    exact .inr ⟨List.singleton_inj.mp hname, above, hchild, habove, hleads⟩
  · left
    have hlast : above ++ [part] = (front ++ name.toList :: between) ++ [last] := by
      rw [← hchild, hparts, List.concat_eq_append]
      simp
    obtain ⟨rfl, -⟩ := List.append_inj' hlast rfl
    rcases habove with habove | habove
    · exact ⟨front, between, habove, hleads⟩
    · exact ⟨front, between ++ [[]], by simp [habove], hleads⟩

/-- The part of a path before a name, with the slash after it. -/
theorem parts_above {front : List (List Char)} (h : ∀ part ∈ front, '/' ∉ part) :
    (Path.mk (joined (front ++ [[]]))).parts = front ++ [[]] := by
  rw [parts, joined, String.toList_ofList]
  refine List.splitOn_intercalate '/' (fun part hpart => ?_) (by simp)
  rcases List.mem_append.mp hpart with hpart | hpart
  · exact h part hpart
  · simp [List.mem_singleton.mp hpart]

theorem not_mem_of_mem_parts (h : part ∈ p.parts) : '/' ∉ part := Text.not_mem_of_mem_splitOn h

theorem isAbsolute_iff_parts :
    p.isAbsolute = true ↔ ∃ first rest, p.parts = [] :: first :: rest := by
  rw [isAbsolute_iff]
  constructor
  · rintro ⟨rest, hrest⟩
    obtain ⟨first, others, hothers⟩ := List.exists_cons_of_ne_nil (List.splitOn_ne_nil '/' rest)
    refine ⟨first, others, ?_⟩
    rw [parts, hrest, ← List.nil_append ('/' :: rest), List.splitOn_append_cons_self, hothers]
    rfl
  · rintro ⟨first, rest, hparts⟩
    have htext : p.text.toList = ['/'].intercalate ([] :: first :: rest) := by
      rw [← hparts, parts, List.intercalate_splitOn]
    exact ⟨_, htext.trans (by rw [List.intercalate_cons_cons]; rfl)⟩

/-- What comes before a name on a path starts where the path starts. -/
theorem isAbsolute_above {front back : List (List Char)} (hpart : part ≠ [])
    (hparts : p.parts = front ++ part :: back) :
    (Path.mk (joined (front ++ [[]]))).isAbsolute = p.isAbsolute := by
  have hslash : ∀ other ∈ front, '/' ∉ other := fun other hother =>
    not_mem_of_mem_parts (p := p) (by simp [hparts, hother])
  rw [Bool.eq_iff_iff, isAbsolute_iff_parts, isAbsolute_iff_parts, hparts, parts_above hslash]
  cases front with
  | nil => simp [hpart]
  | cons first rest => cases rest <;> simp

end Path

end ModuleSearch
