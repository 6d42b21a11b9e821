import ModuleSearch.Proofs.Storage.NewChild
import ModuleSearch.Proofs.Storage.Subtree

/-!
# Volumes with one more node

Two volumes of which the second has one more node, with whatever lies below it. A path that does not
go through the new node leads to places of one location (`GainsChild.locate`), where files of one
content or two directories lie (`GainsChild.sameAt`).
-/

open ModuleSearch.Path (IsName joined)

namespace ModuleSearch

namespace Node

/-- Two files of one content, or two directories. -/
inductive SameKind : Node → Node → Prop
  | file (content : ByteArray) : SameKind (file content) (file content)
  | directory (children children' : List (String × Node)) :
      SameKind (directory children) (directory children')

variable {n m new : Node} {name other : String} {place location : Location}

theorem SameKind.refl (n : Node) : n.SameKind n := by
  cases n with
  | file content => exact .file content
  | directory children => exact .directory children children

theorem SameKind.isFile_eq (h : n.SameKind m) : n.isFile = m.isFile := by
  cases h <;> rfl

theorem SameKind.isDirectory_eq (h : n.SameKind m) : n.isDirectory = m.isDirectory := by
  cases h <;> rfl

theorem rel_sameKind_refl (found : Option Node) : Option.Rel SameKind found found := by
  cases found with
  | none => exact .none
  | some n => exact .some (.refl n)

theorem child?_put (h : n.WellFormed) (name : String) (rest : Location) (other : String) :
    (put new (name :: rest) n).child? other =
      if other = name then some (put new rest ((n.child? name).getD emptyDirectory))
      else n.child? other := by
  rw [put, child?, Node.children, lookup_eq_lookup, updateChild_eq,
    NameMap.lookup_upsertEntry _ _ _ h.ascending, ← lookup_eq_lookup, ← lookup_eq_lookup]
  rfl

theorem at?_put_self (h : n.WellFormed) (location : Location) :
    (put new location n).at? location = some new := by
  induction location generalizing n with
  | nil => rfl
  | cons name rest ih =>
      rw [at?, child?_put h, if_pos rfl, Option.bind_some]
      refine ih ?_
      cases hchild : n.child? name with
      | none => exact .directory .nil (by simp) (by simp)
      | some child => exact h.children _ (mem_of_child? hchild)

theorem WellFormed.isName_of_at? (h : n.WellFormed) (hm : n.at? location = some m) :
    ∀ name ∈ location, IsName name.toList := by
  induction location generalizing n with
  | nil => simp
  | cons name rest ih =>
      obtain ⟨child, hchild, hrest⟩ := Option.bind_eq_some_iff.mp hm
      have hmem := mem_of_child? hchild
      exact List.forall_mem_cons.mpr ⟨h.isName _ hmem, ih (h.children _ hmem) hrest⟩

/-- Putting a node into a directory changes what kind of node lies somewhere only there. -/
theorem at?_put (h : n.WellFormed) {entries : List (String × Node)}
    (hplace : n.at? place = some (directory entries))
    (hlocation : ¬ place ++ [name] <+: location) :
    Option.Rel SameKind (n.at? location) ((put new (place ++ [name]) n).at? location) := by
  induction place generalizing n location with
  | nil =>
      obtain rfl := Option.some.inj hplace
      cases location with
      | nil => exact .some (.directory _ _)
      | cons other rest =>
          have hother : other ≠ name := by
            rintro rfl
            exact hlocation (List.prefix_append [other] rest)
          rw [List.nil_append, at?, at?, child?_put h, if_neg hother]
          exact rel_sameKind_refl _
  | cons first place ih =>
      obtain ⟨child, hchild, hbelow⟩ := Option.bind_eq_some_iff.mp hplace
      cases location with
      | nil =>
          cases n with
          | file content => cases hchild
          | directory children => exact .some (.directory _ _)
      | cons other rest =>
          rw [List.cons_append, at?, at?, child?_put h]
          by_cases hother : other = first
          · subst hother
            rw [if_pos rfl, hchild, Option.bind_some, Option.bind_some, Option.getD_some]
            refine ih (h.children _ (mem_of_child? hchild)) hbelow fun hbelow => hlocation ?_
            rw [List.cons_append]
            exact List.cons_prefix_cons.mpr ⟨rfl, hbelow⟩
          · rw [if_neg hother]
            exact rel_sameKind_refl _

end Node

namespace Volume

/-- The second volume has one more node of this name in one place, and whatever lies below it. -/
structure GainsChild (v w : Volume) (place : Location) (name : String) : Prop where
  node? : ∀ location, ¬ place ++ [name] <+: location →
    Option.Rel Node.SameKind (v.node? location) (w.node? location)
  hasFault : ∀ location fault, ¬ place ++ [name] <+: location →
    v.hasFault location fault = w.hasFault location fault
  unlisted : v.node? (place ++ [name]) = none ∧
    v.hasFault (place ++ [name]) .ghost = false
  listed : ∃ n, w.node? (place ++ [name]) = some n
  workingDirectory : v.workingDirectory = w.workingDirectory
  notWithin : ∀ location ∈ v.workingDirectory, ¬ place ++ [name] <+: location

/-- Where a path starts, also if it is empty. -/
def start? (v : Volume) (p : Path) : Option Trail :=
  if p.isAbsolute then some [] else do (← v.workingDirectory).foldlM v.enter []

/-- The path leads to the directory at this location, the empty path to the working directory. -/
def LeadsTo (v : Volume) (place : Location) (p : Path) : Prop :=
  ∃ start trail, v.start? p = some start ∧ v.follow start p.parts = some trail ∧
    (v.nodeOf trail).isDirectory = true ∧ trail.location = place

/-- Two ways down by the same names to places that do not lie below this one. -/
structure Alike (v w : Volume) (below : Location) (trail trail' : Trail) : Prop where
  location : trail.location = trail'.location
  holds : v.Holds trail
  holds' : w.Holds trail'
  notWithin : ¬ below <+: trail.location

variable {v w : Volume} {place : Location} {name : String} {trail trail' : Trail}
  {part : List Char} {parts : List (List Char)} {p : Path}

theorem Holds.tail (h : v.Holds trail) : v.Holds trail.tail := by
  cases trail with
  | nil => exact h
  | cons e above => exact h.2

theorem location_tail (trail : Trail) :
    Trail.location trail.tail = (Trail.location trail).dropLast := by
  cases trail with
  | nil => rfl
  | cons e above => rw [Trail.location_cons, List.dropLast_concat, List.tail_cons]

theorem location_enter {other : String} {next : Trail} (h : v.enter trail other = some next) :
    next.location = trail.location ++ [other] := by
  obtain ⟨n, -, rfl⟩ := Option.map_eq_some_iff.mp h
  exact Trail.location_cons _ _

theorem node?_location_append {other : String} (h : v.Holds trail) :
    v.node? (trail.location ++ [other]) = (v.nodeOf trail).child? other := by
  rw [Volume.node?, Node.at?_append_singleton]
  change (v.node? trail.location).bind _ = _
  rw [node?_location h, Option.bind_some]

namespace GainsChild

variable (h : v.GainsChild w place name)

include h

theorem sameKind (halike : v.Alike w (place ++ [name]) trail trail') :
    (v.nodeOf trail).SameKind (w.nodeOf trail') := by
  have hkind := h.node? trail.location halike.notWithin
  rw [node?_location halike.holds, halike.location, node?_location halike.holds'] at hkind
  cases hkind
  assumption

theorem enter (halike : v.Alike w (place ++ [name]) trail trail') {other : String}
    (hother : trail.location = place → other ≠ name) :
    Option.Rel (v.Alike w (place ++ [name])) (v.enter trail other) (w.enter trail' other) := by
  have hnot : ¬ place ++ [name] <+: trail.location ++ [other] := by
    rw [List.prefix_concat_iff]
    rintro (heq | hbelow)
    · obtain ⟨hplace, hname⟩ := List.append_inj' heq rfl
      exact hother hplace.symm (List.singleton_inj.mp hname).symm
    · exact halike.notWithin hbelow
  have hkind := h.node? _ hnot
  rw [node?_location_append halike.holds, halike.location,
    node?_location_append halike.holds'] at hkind
  rw [Volume.enter, Volume.enter]
  generalize hchild : (v.nodeOf trail).child? other = child,
    hchild' : (w.nodeOf trail').child? other = child' at hkind ⊢
  cases hkind with
  | none => exact .none
  | some _ =>
      refine .some ⟨?_, ⟨hchild, halike.holds⟩, ⟨hchild', halike.holds'⟩, ?_⟩
      · rw [Trail.location_cons, Trail.location_cons, halike.location]
      · rw [Trail.location_cons]
        exact hnot

theorem step (halike : v.Alike w (place ++ [name]) trail trail')
    (hpart : trail.location = place → part ≠ name.toList) :
    Option.Rel (v.Alike w (place ++ [name])) (v.step trail part) (w.step trail' part) := by
  rw [Volume.step, Volume.step, (h.sameKind halike).isFile_eq]
  split
  · exact .none
  · split
    · exact .some halike
    · split
      · refine .some ⟨?_, halike.holds.tail, halike.holds'.tail, fun hbelow => ?_⟩
        · rw [location_tail, location_tail, halike.location]
        · rw [location_tail] at hbelow
          exact halike.notWithin (hbelow.trans (List.dropLast_prefix _))
      · refine h.enter halike fun hplace hname => hpart hplace ?_
        rw [← hname, String.toList_ofList]

/-- Both volumes lead to the same place unless the new child is on the way. -/
theorem follow (halike : v.Alike w (place ++ [name]) trail trail')
    (hpass : ∀ front back, parts = front ++ name.toList :: back →
      ∀ next, v.follow trail front = some next → next.location ≠ place) :
    Option.Rel (v.Alike w (place ++ [name])) (v.follow trail parts) (w.follow trail' parts) := by
  induction parts generalizing trail trail' with
  | nil => exact .some halike
  | cons part rest ih =>
      have hstep := h.step halike fun hplace (hname : part = name.toList) =>
        hpass [] rest (by rw [hname]; rfl) trail rfl hplace
      rw [follow_cons, follow_cons]
      generalize hnext : v.step trail part = next, w.step trail' part = next' at hstep ⊢
      cases hstep with
      | none => exact .none
      | some hnextAlike =>
          refine ih hnextAlike fun front back hrest last hlast => ?_
          refine hpass (part :: front) back (by rw [hrest]; rfl) last ?_
          rw [follow_cons, hnext]
          exact hlast

theorem enterAll {location : Location} (halike : v.Alike w (place ++ [name]) trail trail')
    (hnot : ¬ place ++ [name] <+: trail.location ++ location) :
    Option.Rel (v.Alike w (place ++ [name])) (location.foldlM v.enter trail)
      (location.foldlM w.enter trail') := by
  induction location generalizing trail trail' with
  | nil => exact .some halike
  | cons other rest ih =>
      have henter := h.enter halike fun hplace (hname : other = name) => by
        exact hnot ⟨rest, by simp [hplace, hname]⟩
      rw [List.foldlM_cons, List.foldlM_cons]
      generalize hnext : v.enter trail other = next, w.enter trail' other = next' at henter ⊢
      cases henter with
      | none => exact .none
      | some hnextAlike =>
          refine ih hnextAlike ?_
          rw [location_enter hnext, ← List.append_cons]
          exact hnot

theorem start? (p : Path) :
    Option.Rel (v.Alike w (place ++ [name])) (v.start? p) (w.start? p) := by
  have hroot : v.Alike w (place ++ [name]) [] [] :=
    ⟨rfl, v.holds_nil, w.holds_nil, by simp [Trail.location]⟩
  rw [Volume.start?, Volume.start?, ← h.workingDirectory]
  split
  · exact .some hroot
  · cases hworking : v.workingDirectory with
    | none => exact .none
    | some location => exact h.enterAll hroot (h.notWithin location hworking)

end GainsChild

theorem follow_above (hslash : ∀ other ∈ parts, '/' ∉ other) {start : Trail} :
    v.follow start (Path.mk (joined (parts ++ [[]]))).parts = some trail ↔
      v.follow start parts = some trail ∧ (v.nodeOf trail).isDirectory = true := by
  rw [Path.parts_above hslash, follow_append, Option.bind_eq_some_iff]
  simp only [follow_singleton]
  constructor
  · rintro ⟨before, hbefore, hstep⟩
    have hdirectory := isDirectory_nodeOf_of_step hstep
    rw [step_of_not_isSegment (by simp [Node.isFile, hdirectory]) (by decide)] at hstep
    obtain rfl := Option.some.inj hstep
    exact ⟨hbefore, hdirectory⟩
  · rintro ⟨hbefore, hdirectory⟩
    exact ⟨trail, hbefore,
      step_of_not_isSegment (by simp [Node.isFile, hdirectory]) (by decide)⟩

/-- Where a path has come to before a name on it. -/
theorem leadsTo_above {front back : List (List Char)} {start : Trail} (hpart : part ≠ [])
    (hparts : p.parts = front ++ part :: back) (hstart : v.start? p = some start)
    (hfollow : v.follow start front = some trail)
    (hdirectory : (v.nodeOf trail).isDirectory = true) :
    v.LeadsTo trail.location ⟨joined (front ++ [[]])⟩ := by
  have hslash : ∀ other ∈ front, '/' ∉ other := fun other hother =>
    Path.not_mem_of_mem_parts (p := p) (by simp [hparts, hother])
  refine ⟨start, trail, ?_, (follow_above hslash).mpr ⟨hfollow, hdirectory⟩, hdirectory, rfl⟩
  rw [start?, Path.isAbsolute_above hpart hparts]
  exact hstart

theorem start?_eq_origin? (hp : p.text ≠ "") : v.start? p = v.origin? p := by
  simp [start?, origin?, hp]

theorem locate_eq_start? (hp : p.text ≠ "") :
    v.locate p = (v.start? p).bind fun start => v.follow start p.parts := by
  rw [locate_eq, start?_eq_origin? hp]

/-- A path that leads to a directory and one that leads there before a name lead to one place. -/
theorem location_of_leadsTo_above {front : List (List Char)} (hpart : IsName part)
    (hlocate : v.locate p = some trail)
    (hchild : (p.child (String.ofList part)).parts = front ++ [part])
    (hfront : p.parts = front ∨ p.parts = front ++ [[]])
    (h : v.LeadsTo place ⟨joined (front ++ [[]])⟩) : trail.location = place := by
  have htext := text_ne_empty_of_locate hlocate
  have hslash : ∀ other ∈ front, '/' ∉ other := by
    intro other hother
    apply Path.not_mem_of_mem_parts (p := p)
    rcases hfront with hfront | hfront <;> simp [hfront, hother]
  have habsolute : (Path.mk (joined (front ++ [[]]))).isAbsolute = p.isAbsolute := by
    rw [Path.isAbsolute_above hpart.ne_nil hchild]
    exact Path.isAbsolute_child htext (by simpa using Path.isAbsolute_ofName hpart "")
  obtain ⟨start, trail', hstart, hfollow, -, hplace⟩ := h
  rw [start?, habsolute] at hstart
  rw [locate_eq_start? htext, show v.start? p = some start from hstart, Option.bind_some] at hlocate
  have hsame : v.follow start p.parts = some trail' := by
    rcases hfront with hfront | hfront
    · rw [hfront]
      exact ((follow_above hslash).mp hfollow).1
    · rw [hfront, ← Path.parts_above hslash]
      exact hfollow
  obtain rfl := Option.some.inj (hlocate.symm.trans hsame)
  exact hplace

theorem leadsTo_iff (h : v.locate p = some trail)
    (hdirectory : (v.nodeOf trail).isDirectory = true) :
    v.LeadsTo place p ↔ trail.location = place := by
  rw [locate_eq_start? (text_ne_empty_of_locate h), Option.bind_eq_some_iff] at h
  obtain ⟨start, hstart, hfollow⟩ := h
  constructor
  · rintro ⟨start', trail', hstart', hfollow', -, hplace⟩
    obtain rfl := Option.some.inj (hstart.symm.trans hstart')
    obtain rfl := Option.some.inj (hfollow.symm.trans hfollow')
    exact hplace
  · exact fun hplace => ⟨start, trail, hstart, hfollow, hdirectory, hplace⟩

namespace GainsChild

variable (h : v.GainsChild w place name)

include h

theorem isDirectory_place (htrail : v.Holds trail) (hplace : trail.location = place) :
    (v.nodeOf trail).isDirectory = true := by
  obtain ⟨n, hn⟩ := h.listed
  rw [Volume.node?, Node.at?_append_singleton, Option.bind_eq_some_iff] at hn
  obtain ⟨m, hm, hn⟩ := hn
  have hnot : ¬ place ++ [name] <+: place := fun hbelow => by simpa using hbelow.length_le
  have hkind := h.node? place hnot
  have hnode : v.node? place = some (v.nodeOf trail) := hplace ▸ node?_location htrail
  rw [hnode, show w.node? place = some m from hm] at hkind
  cases hkind with
  | some hkind =>
      rw [hkind.isDirectory_eq]
      cases m with
      | file content => cases hn
      | directory children => rfl

theorem locate (hname : name ≠ "") (hp : ¬ p.PassesThrough (v.LeadsTo place) name) :
    Option.Rel (v.Alike w (place ++ [name])) (v.locate p) (w.locate p) := by
  by_cases htext : p.text = ""
  · rw [locate_of_empty htext, locate_of_empty htext]
    exact .none
  · rw [locate_eq_start? htext, locate_eq_start? htext]
    have hstart := h.start? p
    generalize hstartEq : v.start? p = start, w.start? p = start' at hstart ⊢
    cases hstart with
    | none => exact .none
    | some halike =>
        refine h.follow halike fun front back hparts next hnext hplace => hp ?_
        have hne : name.toList ≠ [] := by simpa using hname
        have hdirectory := h.isDirectory_place (holds_follow halike.holds hnext) hplace
        have hleads := leadsTo_above hne hparts hstartEq hnext hdirectory
        exact ⟨front, back, hparts, hplace ▸ hleads⟩

theorem sameContent (hrel : Option.Rel (v.Alike w (place ++ [name])) (v.locate p) (w.locate p))
    (fault : Fault) : v.content fault p = w.content fault p := by
  rw [content, content]
  generalize v.locate p = found, w.locate p = found' at hrel ⊢
  cases hrel with
  | none => rfl
  | @some trail trail' halike =>
      have hkind := h.sameKind halike
      have hfault := h.hasFault trail.location fault halike.notWithin
      rw [halike.location] at hfault
      simp only [Option.bind_eq_bind, Option.bind_some, halike.location, hfault]
      generalize v.nodeOf trail = n, w.nodeOf trail' = n' at hkind ⊢
      cases hkind <;> rfl

theorem nodeAt?_rel (hrel : Option.Rel (v.Alike w (place ++ [name])) (v.locate p) (w.locate p)) :
    Option.Rel Node.SameKind (v.nodeAt? p) (w.nodeAt? p) := by
  rw [nodeAt?, nodeAt?]
  generalize v.locate p = found, w.locate p = found' at hrel ⊢
  cases hrel with
  | none => exact .none
  | some halike => exact .some (h.sameKind halike)

theorem sameAt (hrel : Option.Rel (v.Alike w (place ++ [name])) (v.locate p) (w.locate p)) :
    v.storage.SameAt w.storage p := by
  have hkind := h.nodeAt?_rel hrel
  have hsame : (v.nodeAt? p).isSome = (w.nodeAt? p).isSome ∧
      (v.nodeAt? p).any Node.isDirectory = (w.nodeAt? p).any Node.isDirectory ∧
      (v.nodeAt? p).any Node.isFile = (w.nodeAt? p).any Node.isFile := by
    generalize v.nodeAt? p = found, w.nodeAt? p = found' at hkind ⊢
    cases hkind with
    | none => exact ⟨rfl, rfl, rfl⟩
    | some hkind => exact ⟨rfl, hkind.isDirectory_eq, hkind.isFile_eq⟩
  obtain ⟨hpresent, hdirectory, hfile⟩ := hsame
  refine ⟨hpresent, hdirectory, hfile, h.sameContent hrel .read, ?_⟩
  funext n
  exact congrArg (Option.map _) (h.sameContent hrel .head)

end GainsChild

end Volume

end ModuleSearch
