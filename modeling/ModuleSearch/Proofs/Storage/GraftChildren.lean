import ModuleSearch.Proofs.Storage.Graft

/-!
# Listings with one more node

A directory that has got one more node lists it in its place, and all others are listed as before.
So a volume with one more node is a storage with one more child: `GainsChild.storage`. A node that
is put into a directory is such a node: `Lacks.gainsChild`.
-/

open ModuleSearch.Path (IsName)

namespace ModuleSearch.Volume

variable {v w : Volume} {place : Location} {name : String} {trail trail' : Trail} {p : Path}

theorem mem_listedNames_iff (hv : v.WellFormed) (htrail : v.Holds trail) {other : String} :
    other ∈ v.listedNames trail.location (v.nodeOf trail) ↔
      (∃ n, v.node? (trail.location ++ [other]) = some n) ∨
        v.hasFault (trail.location ++ [other]) .ghost = true := by
  have hnode := hv.root.at? (node?_location htrail)
  rw [listedNames, mem_insertAll, mem_ghosts_iff, node?_location_append htrail]
  refine or_congr_left ?_
  simp only [Node.child?_eq_some_iff hnode, List.mem_map, Prod.exists, exists_and_right,
    exists_eq_right]

theorem oneMore_insertName {listed : List String} (hname : name ∉ listed) :
    Storage.OneMore name listed (insertName name listed) := by
  induction listed with
  | nil => exact ⟨[], [], rfl, rfl⟩
  | cons first rest ih =>
      obtain ⟨hfirst, hrest⟩ := not_or.mp (List.mem_cons.not.mp hname)
      rw [insertName]
      split
      · exact ⟨[], first :: rest, rfl, rfl⟩
      · obtain ⟨front, back, hbefore, hafter⟩ := ih hrest
        exact ⟨first :: front, back, by rw [hbefore]; rfl, by rw [hafter]; rfl⟩

namespace GainsChild

variable (h : v.GainsChild w place name) (hv : v.WellFormed) (hw : w.WellFormed)

include h hv

theorem not_mem_listedNames (htrail : v.Holds trail) (hplace : trail.location = place) :
    name ∉ v.listedNames trail.location (v.nodeOf trail) := by
  rw [mem_listedNames_iff hv htrail, hplace, h.unlisted.1, h.unlisted.2]
  simp

include hw

theorem mem_listedNames (halike : v.Alike w (place ++ [name]) trail trail') {other : String} :
    other ∈ w.listedNames trail'.location (w.nodeOf trail') ↔
      other ∈ v.listedNames trail.location (v.nodeOf trail) ∨
        (trail.location = place ∧ other = name) := by
  rw [mem_listedNames_iff hv halike.holds, mem_listedNames_iff hw halike.holds', ← halike.location]
  by_cases hnew : trail.location = place ∧ other = name
  · obtain ⟨hplace, rfl⟩ := hnew
    rw [hplace]
    exact iff_of_true (.inl h.listed) (.inr ⟨rfl, rfl⟩)
  · have hnot : ¬ place ++ [name] <+: trail.location ++ [other] := by
      rw [List.prefix_concat_iff]
      rintro (heq | hprefix)
      · obtain ⟨hplace, hname⟩ := List.append_inj' heq rfl
        exact hnew ⟨hplace.symm, (List.singleton_inj.mp hname).symm⟩
      · exact halike.notWithin hprefix
    have hkind := h.node? _ hnot
    rw [h.hasFault _ _ hnot, or_iff_left hnew]
    refine or_congr_left ?_
    generalize v.node? (trail.location ++ [other]) = found,
      w.node? (trail.location ++ [other]) = found' at hkind ⊢
    cases hkind <;> simp

theorem listedNames_eq (halike : v.Alike w (place ++ [name]) trail trail') :
    w.listedNames trail'.location (w.nodeOf trail') =
      if trail.location = place then
        insertName name (v.listedNames trail.location (v.nodeOf trail))
      else v.listedNames trail.location (v.nodeOf trail) := by
  have hascending := ascending_listedNames hv halike.holds
  have hascending' := ascending_listedNames hw halike.holds'
  split
  · rename_i hplace
    refine hascending'.eq_of_mem_iff (ascending_insertName hascending) fun other => ?_
    rw [h.mem_listedNames hv hw halike, mem_insertName, and_iff_right hplace, or_comm]
  · rename_i hplace
    refine hascending'.eq_of_mem_iff hascending fun other => ?_
    rw [h.mem_listedNames hv hw halike, or_iff_left (fun hnew => hplace hnew.1)]

/-- The listing of the directory has the new child in addition, all others are as before. -/
theorem children_rel
    (hrel : Option.Rel (v.Alike w (place ++ [name])) (v.locate p) (w.locate p)) :
    Option.Rel (fun before after => before = after ∧ ¬ v.LeadsTo place p ∨
      Storage.OneMore (p.child name) before after ∧ v.LeadsTo place p)
      (v.storage.children p) (w.storage.children p) := by
  change Option.Rel _ (v.childPaths p) (w.childPaths p)
  rw [childPaths, childPaths]
  generalize hlocate : v.locate p = found, w.locate p = found' at hrel ⊢
  cases hrel with
  | none => exact .none
  | @some trail trail' halike =>
      have hkind := h.sameKind halike
      have hfault := h.hasFault trail.location .list halike.notWithin
      have hlisted := h.listedNames_eq hv hw halike
      have hleads : (v.nodeOf trail).isDirectory = true →
          (v.LeadsTo place p ↔ trail.location = place) :=
        leadsTo_iff hlocate
      have hnew := h.not_mem_listedNames hv halike.holds
      rw [← halike.location] at hlisted
      simp only [Option.bind_eq_bind, Option.bind_some, ← halike.location, ← hfault]
      generalize v.nodeOf trail = n, w.nodeOf trail' = n' at hkind hlisted hleads hnew ⊢
      cases hkind with
      | file content => exact .none
      | directory entries entries' =>
          dsimp only
          split
          · exact .none
          · refine .some ?_
            rw [hlisted, hleads rfl]
            split
            · rename_i hplace
              obtain ⟨front, back, hbefore, hafter⟩ := oneMore_insertName (hnew hplace)
              refine .inr ⟨⟨front.map p.child, back.map p.child, ?_, ?_⟩, hplace⟩
              · rw [hbefore, List.map_append]
              · rw [hafter, List.map_append, List.map_cons]
            · rename_i hplace
              exact .inl ⟨rfl, hplace⟩

theorem storage (hname : IsName name.toList) :
    v.storage.GainsChild w.storage (v.LeadsTo place) name where
  sameAt p hp := h.sameAt (h.locate (by simpa using hname.ne_nil) hp)
  children_eq p hp hleads := by
    have hrel := h.children_rel hv hw (h.locate (by simpa using hname.ne_nil) hp)
    generalize v.storage.children p = found, w.storage.children p = found' at hrel ⊢
    cases hrel with
    | none => rfl
    | some hchildren =>
        rcases hchildren with ⟨rfl, -⟩ | ⟨-, hplace⟩
        · rfl
        · exact absurd hplace hleads
  oneMore p hp hleads := by
    have hrel := h.children_rel hv hw (h.locate (by simpa using hname.ne_nil) hp)
    generalize v.storage.children p = found, w.storage.children p = found' at hrel ⊢
    cases hrel with
    | none => exact .none
    | some hchildren =>
        rcases hchildren with ⟨-, hplace⟩ | ⟨hmore, -⟩
        · exact absurd hleads hplace
        · exact .some hmore
  unlisted p children hp hchildren q hq hpass := by
    obtain ⟨trail, hlocate, hdirectory, -, rfl⟩ := children_eq_some_iff.mp hchildren
    obtain ⟨other, hother, rfl⟩ := List.mem_map.mp hq
    have hnameOther := isName_of_mem_listedNames hv (holds_locate hlocate) hother
    have hchild : (p.child (String.ofList other.toList)).PassesThrough (v.LeadsTo place) name := by
      rw [String.ofList_toList]
      exact hpass
    rcases hchild.of_child hnameOther with habove | ⟨heq, front, hparts, hfront, hleads⟩
    · exact hp habove
    · have hplace := location_of_leadsTo_above hnameOther hlocate hparts hfront hleads
      obtain rfl := String.toList_inj.mp heq
      exact h.not_mem_listedNames hv (holds_locate hlocate) hplace hother

end GainsChild

/-! ## Putting a child into a directory -/

/-- Puts a node into a directory, with faults at places from there on. -/
def withChild (v : Volume) (place : Location) (name : String) (new : Node)
    (faults : List (Location × Fault)) : Volume :=
  { v with
    root := Node.put new (place ++ [name]) v.root
    faults := faults.map (fun f => (place ++ [name] ++ f.1, f.2)) ++ v.faults }

/-- A directory that has no child of this name, nor seems to have one. -/
structure Lacks (v : Volume) (place : Location) (name : String) : Prop where
  isDirectory : ∃ children, v.node? place = some (.directory children)
  node? : v.node? (place ++ [name]) = none
  hasFault : v.hasFault (place ++ [name]) .ghost = false
  notWithin : ∀ location ∈ v.workingDirectory, ¬ place ++ [name] <+: location

variable {new : Node} {faults : List (Location × Fault)}

theorem hasFault_withChild {location : Location} {fault : Fault}
    (h : ¬ place ++ [name] <+: location) :
    v.hasFault location fault = (v.withChild place name new faults).hasFault location fault := by
  have hnone : (faults.map fun f => (place ++ [name] ++ f.1, f.2)).any
      (fun f => f.1 == location && f.2 == fault) = false := by
    rw [List.any_eq_false]
    intro f hf
    obtain ⟨below, -, rfl⟩ := List.mem_map.mp hf
    have hne : place ++ [name] ++ below.1 ≠ location := by
      rintro rfl
      exact h (List.prefix_append _ _)
    rw [beq_false_of_ne hne]
    exact Bool.false_ne_true
  rw [hasFault, hasFault, withChild, List.any_append, hnone, Bool.false_or]

theorem Lacks.gainsChild (h : v.Lacks place name) (hv : v.WellFormed) :
    v.GainsChild (v.withChild place name new faults) place name where
  node? location hlocation := by
    obtain ⟨children, hplace⟩ := h.isDirectory
    exact Node.at?_put hv.root hplace hlocation
  hasFault location fault hlocation := hasFault_withChild hlocation
  unlisted := ⟨h.node?, h.hasFault⟩
  listed := ⟨new, Node.at?_put_self hv.root _⟩
  workingDirectory := rfl
  notWithin := h.notWithin

theorem Lacks.wellFormed (h : v.Lacks place name) (hv : v.WellFormed) (hname : IsName name.toList)
    (hnew : new.WellFormed)
    (hfaults : ∀ f ∈ faults, f.2 = .ghost → ∀ other ∈ f.1, IsName other.toList) :
    (v.withChild place name new faults).WellFormed := by
  obtain ⟨children, hplace⟩ := h.isDirectory
  have hlocation : ∀ other ∈ place ++ [name], IsName other.toList := by
    intro other hother
    rcases List.mem_append.mp hother with hother | hother
    · exact hv.root.isName_of_at? hplace other hother
    · exact List.mem_singleton.mp hother ▸ hname
  refine ⟨hv.root.put hnew hlocation, fun f hf hghost other hother => ?_⟩
  rcases List.mem_append.mp hf with hf | hf
  · obtain ⟨below, hbelow, rfl⟩ := List.mem_map.mp hf
    rcases List.mem_append.mp hother with hother | hother
    · exact hlocation other hother
    · exact hfaults below hbelow hghost other hother
  · exact hv.ghosts f hf hghost other hother

theorem start?_of_relative (h : p.isAbsolute = false) {q : Path} (hq : q.isAbsolute = false) :
    v.start? p = v.start? q := by
  rw [start?, start?, h, hq]

/-- A child is looked for where its directory is reached, also if that has the empty path. -/
theorem locate_child_eq_start? (p : Path) (hname : IsName name.toList) :
    v.locate (p.child name) = (v.start? p).bind fun start =>
      (v.follow start p.parts).bind fun trail => v.step trail name.toList := by
  by_cases hp : p.text = ""
  · have hrelative : (Path.mk name).isAbsolute = false := by
      simpa using Path.isAbsolute_ofName hname ""
    have hparts : (Path.mk name).parts = [name.toList] := by
      simpa using Path.parts_ofName hname
    have hempty : p.parts = [[]] := by
      rw [Path.parts, hp]
      rfl
    have hpart : (Path.mk name).text ≠ "" := by simpa using hname.ne_nil
    rw [Path.child_of_empty hp hrelative, locate_eq_start? hpart, hparts, hempty,
      start?_of_relative hrelative (q := p) (by simp [Path.isAbsolute, hp])]
    congr 1
    funext start
    rw [← follow_cons_of_not_isSegment (show Path.isSegment [] = false by decide) (by simp),
      ← List.singleton_append, follow_append]
    simp only [follow_singleton]
  · have hchild := locate_child (v := v) hp hname
    rw [String.ofList_toList, locate_eq_start? hp, Option.bind_assoc] at hchild
    exact hchild

/-- Where the path leads on by the name, the child is found. -/
theorem GainsChild.exists_locate_child (h : v.GainsChild w place name) (hname : IsName name.toList)
    (hleads : v.LeadsTo place p) :
    ∃ trail, w.locate (p.child name) = some trail ∧ trail.location = place ++ [name] := by
  obtain ⟨start, trail, hstart, hfollow, hdirectory, hplace⟩ := hleads
  have hstartRel := h.start? p
  rw [hstart] at hstartRel
  generalize hstart' : w.start? p = found at hstartRel
  cases hstartRel with
  | @some _ start' halike =>
      -- in the first volume the name leads nowhere
      have hpass : ∀ front back, p.parts = front ++ name.toList :: back →
          ∀ next, v.follow start front = some next → next.location ≠ place := by
        intro front back hparts next hnext hlocation
        have hholds := holds_follow halike.holds hnext
        have hnone : v.step next name.toList = none := by
          rw [step_name (by simp [Node.isFile, h.isDirectory_place hholds hlocation]) hname,
            Volume.enter, String.ofList_toList, ← node?_location_append hholds, hlocation,
            h.unlisted.1]
          rfl
        rw [hparts, follow_append, hnext, Option.bind_some, follow_cons, hnone] at hfollow
        cases hfollow
      have hfollowRel := h.follow halike hpass
      rw [hfollow] at hfollowRel
      generalize hfollow' : w.follow start' p.parts = found at hfollowRel
      cases hfollowRel with
      | @some _ trail' halike =>
          obtain ⟨n, hn⟩ := h.listed
          have hplace' : trail'.location = place := halike.location.symm.trans hplace
          have hdirectory' : (w.nodeOf trail').isDirectory = true :=
            (h.sameKind halike).isDirectory_eq ▸ hdirectory
          have henter : w.enter trail' name = some ((name, n) :: trail') := by
            rw [Volume.enter, ← node?_location_append halike.holds', hplace', hn]
            rfl
          refine ⟨(name, n) :: trail', ?_, by rw [Trail.location_cons, hplace']⟩
          rw [locate_child_eq_start? p hname, hstart', Option.bind_some, hfollow',
            Option.bind_some, step_name (by simp [Node.isFile, hdirectory']) hname,
            String.ofList_toList, henter]

theorem Lacks.exists_locate_child (h : v.Lacks place name) (hv : v.WellFormed)
    (hname : IsName name.toList) (hleads : v.LeadsTo place p) (new : Node)
    (faults : List (Location × Fault)) :
    ∃ trail, (v.withChild place name new faults).locate (p.child name) = some trail ∧
      trail.location = place ++ [name] ∧
      (v.withChild place name new faults).nodeOf trail = new := by
  obtain ⟨trail, htrail, hlocation⟩ := (h.gainsChild hv).exists_locate_child hname hleads
  refine ⟨trail, htrail, hlocation, ?_⟩
  have hnode := node?_location (holds_locate htrail)
  rw [hlocation] at hnode
  exact Option.some.inj (hnode.symm.trans (Node.at?_put_self hv.root _))

end ModuleSearch.Volume
