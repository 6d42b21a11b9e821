import ModuleSearch.Module.Located
import ModuleSearch.NameMap

/-!
# Modules by name

What a catalog remembers: at most one module of each name. Main statements: `get?_addAllNew`, that
of several modules with one name the first is kept, and `mem_toList`, that a listing holds exactly
what single lookups give.
-/

namespace ModuleSearch

/-- Modules by their names. -/
structure Modules where
  byName : NameMap LocatedModule
  /-- A module stands at its own name. -/
  named : ∀ {name m}, byName.get? name = some m → m.name = name

namespace Modules

instance : Repr Modules := ⟨fun found n => reprPrec found.byName n⟩

def empty : Modules := ⟨.empty, by simp⟩

def get? (found : Modules) (name : String) : Option LocatedModule := found.byName.get? name

/-- In ascending order of their names. -/
def toList (found : Modules) : List LocatedModule := found.byName.values

theorem named_insertIfNew (found : Modules) (m : LocatedModule) {name : String}
    {n : LocatedModule} (h : (found.byName.insertIfNew m.name m).get? name = some n) :
    n.name = name := by
  rw [NameMap.get?_insertIfNew] at h
  split at h
  · rename_i hname
    have hn : (found.byName.get? m.name).getD m = n := Option.some.inj h
    rw [hname, ← hn]
    cases hm : found.byName.get? m.name with
    | none => rfl
    | some kept => exact found.named hm
  · exact found.named h

/-- A module that is there already is kept. -/
def addNew (found : Modules) (m : LocatedModule) : Modules :=
  ⟨found.byName.insertIfNew m.name m, found.named_insertIfNew m⟩

def addAllNew (found : Modules) (modules : List LocatedModule) : Modules :=
  modules.foldl addNew found

theorem ext_get? {found other : Modules} (h : ∀ name, found.get? name = other.get? name) :
    found = other := by
  obtain ⟨byName, named⟩ := found
  obtain ⟨byName', named'⟩ := other
  have hmaps : byName = byName' := NameMap.ext_get? h
  subst hmaps
  rfl

theorem name_of_get? {found : Modules} {name : String} {m : LocatedModule}
    (h : found.get? name = some m) : m.name = name := found.named h

@[simp] theorem get?_empty (name : String) : empty.get? name = none := rfl

@[simp] theorem toList_empty : empty.toList = [] := rfl

theorem get?_addNew (found : Modules) (m : LocatedModule) (name : String) :
    (found.addNew m).get? name =
      (found.get? name).or (if m.name = name then some m else none) := by
  have h : (found.addNew m).get? name =
      if name = m.name then some ((found.get? m.name).getD m) else found.get? name :=
    NameMap.get?_insertIfNew ..
  rw [h]
  by_cases hname : m.name = name
  · subst hname
    cases found.get? m.name <;> simp
  · simp [hname, Ne.symm hname]

/-- Of several modules with one name the first is kept. -/
theorem get?_addAllNew (found : Modules) (modules : List LocatedModule) (name : String) :
    (found.addAllNew modules).get? name =
      (found.get? name).or (modules.find? fun m => m.name == name) := by
  induction modules generalizing found with
  | nil => simp [addAllNew]
  | cons m rest ih =>
      change ((found.addNew m).addAllNew rest).get? name = _
      rw [ih, get?_addNew, List.find?_cons]
      by_cases hname : m.name = name
      · simp [hname]
      · simp [hname, beq_false_of_ne hname]

/-- A listing holds exactly what single lookups give. -/
theorem mem_toList {found : Modules} {m : LocatedModule} :
    m ∈ found.toList ↔ found.get? m.name = some m := by
  constructor
  · intro h
    obtain ⟨⟨name, n⟩, he, rfl⟩ := List.mem_map.mp h
    have hget : found.get? name = some n := NameMap.get?_eq_some_iff.mpr he
    rw [name_of_get? hget]
    exact hget
  · intro h
    have he : (m.name, m) ∈ found.byName.entries := NameMap.get?_eq_some_iff.mp h
    exact List.mem_map.mpr ⟨_, he, rfl⟩

theorem find?_toList (found : Modules) (name : String) :
    (found.toList.find? fun m => m.name == name) = found.get? name := by
  cases h : found.toList.find? fun m => m.name == name with
  | none =>
      cases hm : found.get? name with
      | none => rfl
      | some m =>
          have hname : m.name = name := name_of_get? hm
          have hmem : m ∈ found.toList := mem_toList.mpr (hname ▸ hm)
          exact absurd (beq_iff_eq.mpr hname) (List.find?_eq_none.mp h m hmem)
  | some m =>
      have hname := List.find?_some h
      simp only [beq_iff_eq] at hname
      have hget : found.get? m.name = some m := mem_toList.mp (List.mem_of_find?_eq_some h)
      rw [← hname, hget]

theorem toList_ascending (found : Modules) :
    found.toList.Pairwise fun m n => m.name < n.name := by
  have hname : ∀ e ∈ found.byName.entries, e.2.name = e.1 := by
    intro e he
    exact found.named (NameMap.get?_eq_some_iff.mpr he)
  refine List.pairwise_map.mpr (found.byName.sorted.imp_of_mem ?_)
  intro a b ha hb hlt
  rw [hname a ha, hname b hb]
  exact hlt

end Modules

end ModuleSearch
