import Mathlib.Data.List.Sort
import Mathlib.Data.Option.Defs
import Mathlib.Data.String.Basic
import ModuleSearch.Proofs.Storage.Volume

/-!
# Equal subtrees

Two places, maybe of two volumes, where the same lies and where the same fails. Whoever goes on from
there without going up meets the same files (`AgreesAt.child`), and all questions on paths are
answered alike.
-/

open ModuleSearch.Path (IsName)

namespace ModuleSearch

namespace Volume

/-- The trails end at the same tree, and the same fails in it. -/
structure SameTree (v w : Volume) (trail trail' : Trail) : Prop where
  node : v.nodeOf trail = w.nodeOf trail'
  hasFault : ∀ below fault,
    v.hasFault (trail.location ++ below) fault = w.hasFault (trail'.location ++ below) fault

/-- The path leads to the same tree in both volumes. -/
def SameAt (v w : Volume) (p : Path) : Prop :=
  ∃ trail trail', v.locate p = some trail ∧ w.locate p = some trail' ∧ v.SameTree w trail trail'

/-- The path leads to the same tree in both volumes, or in neither to anything. -/
def AgreesAt (v w : Volume) (p : Path) : Prop :=
  Option.Rel (v.SameTree w) (v.locate p) (w.locate p)

variable {v w : Volume} {p : Path} {trail trail' : Trail} {part : List Char}
  {parts : List (List Char)} {text : String}

theorem SameAt.agreesAt (h : v.SameAt w p) : v.AgreesAt w p := by
  obtain ⟨trail, trail', htrail, htrail', hsame⟩ := h
  rw [AgreesAt, htrail, htrail']
  exact .some hsame

/-- A name that is listed although nothing is there stems from a fault at its place. -/
theorem mem_ghosts_iff {location : Location} {name : String} :
    name ∈ v.faults.filterMap (ghostIn? location) ↔
      v.hasFault (location ++ [name]) .ghost = true := by
  simp only [List.mem_filterMap, ghostIn?, Option.ite_none_right_eq_some, hasFault,
    List.any_eq_true, Bool.and_eq_true, beq_iff_eq]
  refine exists_congr fun f => and_congr_right fun _ => ?_
  constructor
  · rintro ⟨⟨hghost, rfl⟩, hname⟩
    obtain ⟨front, hfront⟩ := List.getLast?_eq_some_iff.mp hname
    exact ⟨by rw [hfront, List.dropLast_concat], hghost⟩
  · rintro ⟨hlocation, hghost⟩
    rw [hlocation]
    exact ⟨⟨hghost, List.dropLast_concat⟩, List.getLast?_concat⟩

namespace SameTree

theorem enter (h : v.SameTree w trail trail') (name : String) :
    Option.Rel (v.SameTree w) (v.enter trail name) (w.enter trail' name) := by
  rw [Volume.enter, Volume.enter, ← h.node]
  cases (v.nodeOf trail).child? name with
  | none => exact .none
  | some child =>
      refine .some ⟨rfl, fun below fault => ?_⟩
      rw [Trail.location_cons, Trail.location_cons, List.append_assoc, List.append_assoc]
      exact h.hasFault (name :: below) fault

theorem step (h : v.SameTree w trail trail') (hup : part ≠ ['.', '.']) :
    Option.Rel (v.SameTree w) (v.step trail part) (w.step trail' part) := by
  rw [Volume.step, Volume.step, ← h.node, if_neg hup, if_neg hup]
  split
  · exact .none
  · split
    · exact .some h
    · exact h.enter (String.ofList part)

/-- Parts that do not go up lead to the same tree again. -/
theorem follow (h : v.SameTree w trail trail') (hup : ['.', '.'] ∉ parts) :
    Option.Rel (v.SameTree w) (v.follow trail parts) (w.follow trail' parts) := by
  induction parts generalizing trail trail' with
  | nil => exact .some h
  | cons part rest ih =>
      obtain ⟨hpart, hrest⟩ : part ≠ ['.', '.'] ∧ ['.', '.'] ∉ rest := by
        simpa [eq_comm] using hup
      have hstep := h.step hpart
      rw [follow_cons, follow_cons]
      generalize v.step trail part = next, w.step trail' part = next' at hstep ⊢
      cases hstep with
      | none => exact .none
      | some hnext => exact ih hnext hrest

theorem listedNames_eq (h : v.SameTree w trail trail') (hv : v.WellFormed) (hw : w.WellFormed)
    (htrail : v.Holds trail) (htrail' : w.Holds trail') :
    v.listedNames trail.location (v.nodeOf trail) =
      w.listedNames trail'.location (w.nodeOf trail') := by
  refine (ascending_listedNames hv htrail).eq_of_mem_iff (ascending_listedNames hw htrail') ?_
  intro name
  rw [listedNames, listedNames, mem_insertAll, mem_insertAll, mem_ghosts_iff, mem_ghosts_iff,
    h.node, h.hasFault]

end SameTree

namespace AgreesAt

theorem none_or_sameAt (h : v.AgreesAt w p) :
    (v.locate p = none ∧ w.locate p = none) ∨ v.SameAt w p := by
  rw [AgreesAt] at h
  rw [SameAt]
  generalize v.locate p = found, w.locate p = found' at h ⊢
  cases h with
  | none => exact .inl ⟨rfl, rfl⟩
  | some hsame => exact .inr ⟨_, _, rfl, rfl, hsame⟩

theorem child (h : v.AgreesAt w p) (hp : p.text ≠ "")
    (hrelative : (Path.mk text).isAbsolute = false) (hup : ['.', '.'] ∉ (Path.mk text).parts) :
    v.AgreesAt w (p.child text) := by
  rw [AgreesAt, locate_child_of_relative hp hrelative, locate_child_of_relative hp hrelative]
  obtain ⟨hnone, hnone'⟩ | ⟨trail, trail', htrail, htrail', hsame⟩ := h.none_or_sameAt
  · rw [hnone, hnone']
    exact .none
  · rw [htrail, htrail']
    exact hsame.follow hup

theorem child_ofName (h : v.AgreesAt w p) (hp : p.text ≠ "") {name : List Char}
    (hname : IsName name) : v.AgreesAt w (p.child (String.ofList name)) := by
  refine h.child hp (by simpa using Path.isAbsolute_ofName hname "") ?_
  rw [Path.parts_ofName hname, List.mem_singleton]
  exact hname.2.1.symm

theorem nodeAt?_eq (h : v.AgreesAt w p) : v.nodeAt? p = w.nodeAt? p := by
  rw [nodeAt?, nodeAt?]
  obtain ⟨hnone, hnone'⟩ | ⟨trail, trail', htrail, htrail', hsame⟩ := h.none_or_sameAt
  · rw [hnone, hnone']
    rfl
  · rw [htrail, htrail']
    exact congrArg some hsame.node

theorem isFile_eq (h : v.AgreesAt w p) : v.storage.isFile p = w.storage.isFile p :=
  congrArg (Option.any Node.isFile) h.nodeAt?_eq

theorem isDirectory_eq (h : v.AgreesAt w p) :
    v.storage.isDirectory p = w.storage.isDirectory p :=
  congrArg (Option.any Node.isDirectory) h.nodeAt?_eq

theorem read_eq (h : v.AgreesAt w p) : v.storage.read p = w.storage.read p := by
  change v.content .read p = w.content .read p
  rw [content, content]
  obtain ⟨hnone, hnone'⟩ | ⟨trail, trail', htrail, htrail', hsame⟩ := h.none_or_sameAt
  · rw [hnone, hnone']
    rfl
  · have hfault : v.hasFault trail.location .read = w.hasFault trail'.location .read := by
      simpa using hsame.hasFault [] .read
    simp [htrail, htrail', hsame.node, hfault]

theorem children_eq (h : v.AgreesAt w p) (hv : v.WellFormed) (hw : w.WellFormed) :
    v.storage.children p = w.storage.children p := by
  change v.childPaths p = w.childPaths p
  rw [childPaths, childPaths]
  obtain ⟨hnone, hnone'⟩ | ⟨trail, trail', htrail, htrail', hsame⟩ := h.none_or_sameAt
  · rw [hnone, hnone']
    rfl
  · have hfault : v.hasFault trail.location .list = w.hasFault trail'.location .list := by
      simpa using hsame.hasFault [] .list
    have hlisted := hsame.listedNames_eq hv hw (holds_locate htrail) (holds_locate htrail')
    rw [hsame.node] at hlisted
    simp only [htrail, htrail', Option.bind_eq_bind, Option.bind_some, hsame.node, hfault]
    cases hnode : w.nodeOf trail' with
    | file content => rfl
    | directory entries =>
        rw [hnode] at hlisted
        simp only [hlisted]

end AgreesAt

end Volume

end ModuleSearch
