import ModuleSearch.Proofs.Storage.Lawful
import ModuleSearch.Proofs.Storage.Tree

/-!
# Volumes are lawful

A volume whose names are names keeps the laws of storage: `Volume.lawful`. Volumes that are made of
files are of this kind: `Volume.wellFormed_ofFiles`.
-/

open ModuleSearch.Path (IsName)

namespace ModuleSearch.Volume

variable {v : Volume} {p q : Path} {trail next : Trail} {name part : List Char}
  {names parts : List (List Char)}

/-- All names that the volume has or lists are names. -/
structure WellFormed (v : Volume) : Prop where
  root : v.root.WellFormed
  ghosts : ∀ f ∈ v.faults, f.2 = .ghost → ∀ name ∈ f.1, IsName name.toList

/-! ## Following a path -/

theorem follow_append (v : Volume) (start : Trail) (parts parts' : List (List Char)) :
    v.follow start (parts ++ parts') =
      (v.follow start parts).bind fun trail => v.follow trail parts' := by
  rw [follow, List.foldlM_append]
  rfl

theorem follow_cons (v : Volume) (start : Trail) (part : List Char) (parts : List (List Char)) :
    v.follow start (part :: parts) =
      (v.step start part).bind fun trail => v.follow trail parts := rfl

theorem follow_singleton (v : Volume) (start : Trail) (part : List Char) :
    v.follow start [part] = v.step start part := by
  rw [follow_cons]
  exact Option.bind_fun_some _

/-- Where a path starts. -/
def origin? (v : Volume) (p : Path) : Option Trail :=
  if p.isAbsolute then some []
  else if p.text.isEmpty then none
  else do (← v.workingDirectory).foldlM v.enter []

theorem step_of_isFile (h : (v.nodeOf trail).isFile = true) (part : List Char) :
    v.step trail part = none := by
  rw [step, if_pos h]

theorem step_of_not_isSegment (h : (v.nodeOf trail).isFile = false)
    (hpart : Path.isSegment part = false) : v.step trail part = some trail := by
  simp [step, h, hpart]

theorem step_name (h : (v.nodeOf trail).isFile = false) (hname : IsName name) :
    v.step trail name = v.enter trail (String.ofList name) := by
  simp [step, h, hname.1, hname.2.1]

/-- An empty part or a dot stays where it is, unless nothing comes after it. -/
theorem follow_cons_of_not_isSegment (hpart : Path.isSegment part = false) (hne : parts ≠ []) :
    v.follow trail (part :: parts) = v.follow trail parts := by
  rw [follow_cons]
  cases hfile : (v.nodeOf trail).isFile with
  | false =>
      rw [step_of_not_isSegment hfile hpart]
      rfl
  | true =>
      -- nothing is found below a file, however many parts are left
      obtain ⟨first, others, rfl⟩ := List.exists_cons_of_ne_nil hne
      rw [step_of_isFile hfile, follow_cons, step_of_isFile hfile]
      rfl

/-- The empty part before the first slash does not count. -/
theorem locate_eq (v : Volume) (p : Path) :
    v.locate p = (v.origin? p).bind fun start => v.follow start p.parts := by
  rw [locate, origin?]
  split
  · rename_i habsolute
    obtain ⟨rest, hrest⟩ := Path.isAbsolute_iff.mp habsolute
    have hparts : p.parts = [] :: rest.splitOn '/' := by
      rw [Path.parts, hrest, ← List.nil_append ('/' :: rest), List.splitOn_append_cons_self]
      rfl
    rw [hparts, List.tail_cons, Option.bind_some,
      follow_cons_of_not_isSegment (by decide) (List.splitOn_ne_nil '/' rest)]
  · split
    · rfl
    · simp only [Option.bind_eq_bind, Option.bind_assoc]

theorem locate_of_empty (hp : p.text = "") : v.locate p = none := by
  simp [locate, Path.isAbsolute, hp]

theorem origin?_child {text : String} (hp : p.text ≠ "")
    (h : (Path.mk text).isAbsolute = false) : v.origin? (p.child text) = v.origin? p := by
  have hchild : (p.child text).text ≠ "" := by
    obtain ⟨front, hfront, -⟩ := Path.toList_child hp h
    intro hempty
    simp [hempty] at hfront
  simp [origin?, Path.isAbsolute_child hp h, hp, hchild]

/-- A path that ends with a slash leads on like one without it. -/
theorem locate_child_of_relative {text : String} (hp : p.text ≠ "")
    (h : (Path.mk text).isAbsolute = false) :
    v.locate (p.child text) =
      (v.locate p).bind fun trail => v.follow trail (Path.mk text).parts := by
  obtain ⟨front, -, hchild, hfront⟩ := Path.parts_child hp h
  rw [locate_eq, locate_eq, origin?_child hp h, hchild, Option.bind_assoc]
  congr 1
  funext start
  obtain hfront | hfront := hfront
  · rw [hfront, follow_append]
  · -- the empty part after a slash at the end stays where it is
    rw [hfront, follow_append, follow_append, Option.bind_assoc]
    simp only [← follow_append, List.singleton_append,
      follow_cons_of_not_isSegment (show Path.isSegment [] = false by decide)
        (Path.parts_ne_nil _)]

theorem locate_child (hp : p.text ≠ "") (h : IsName name) :
    v.locate (p.child (String.ofList name)) =
      (v.locate p).bind fun trail => v.step trail name := by
  have hrelative : (Path.mk (String.ofList name)).isAbsolute = false := by
    simpa using Path.isAbsolute_ofName h ""
  rw [locate_child_of_relative hp hrelative, Path.parts_ofName h]
  simp only [follow_singleton]

/-- Only the names on the way count for a path that ends with one. -/
theorem follow_segments (start : Trail) (front : List (List Char)) (hname : IsName name) :
    v.follow start (front ++ [name]) =
      v.follow start ((front ++ [name]).filter Path.isSegment) := by
  induction front generalizing start with
  | nil => simp [hname.1]
  | cons part rest ih =>
      rw [List.cons_append]
      by_cases hpart : Path.isSegment part = true
      · rw [List.filter_cons_of_pos hpart, follow_cons, follow_cons]
        simp only [ih]
      · rw [List.filter_cons_of_neg hpart, ← ih start,
          follow_cons_of_not_isSegment (by simpa using hpart) (by simp)]

theorem isFile_storage : v.storage.isFile p = true ↔
    ∃ trail, v.locate p = some trail ∧ (v.nodeOf trail).isFile = true := by
  cases h : v.locate p <;> simp [storage, nodeAt?, h]

theorem isDirectory_storage : v.storage.isDirectory p = true ↔
    ∃ trail, v.locate p = some trail ∧ (v.nodeOf trail).isDirectory = true := by
  cases h : v.locate p <;> simp [storage, nodeAt?, h]

theorem holds_storage : v.storage.Holds p ↔ ∃ trail, v.locate p = some trail := by
  rw [Storage.Holds, isFile_storage, isDirectory_storage]
  constructor
  · rintro (⟨trail, h, -⟩ | ⟨trail, h, -⟩) <;> exact ⟨trail, h⟩
  · rintro ⟨trail, h⟩
    cases hnode : v.nodeOf trail with
    | file content => exact .inl ⟨trail, h, by rw [hnode]; rfl⟩
    | directory children => exact .inr ⟨trail, h, by rw [hnode]; rfl⟩

theorem isDirectory_nodeOf_of_step (h : v.step trail part = some next) :
    (v.nodeOf trail).isDirectory = true := by
  cases hnode : (v.nodeOf trail).isDirectory with
  | true => rfl
  | false =>
      rw [step_of_isFile (by simp [Node.isFile, hnode])] at h
      cases h

/-! ## The laws -/

theorem text_ne_empty_of_locate (h : v.locate p = some trail) : p.text ≠ "" := by
  intro hp
  rw [locate_of_empty hp] at h
  cases h

/-- Going up does not lead to a file. -/
theorem isDirectory_tail (h : v.Holds trail) (hnode : (v.nodeOf trail).isDirectory = true) :
    (v.nodeOf trail.tail).isDirectory = true := by
  cases trail with
  | nil => exact hnode
  | cons e above =>
      obtain ⟨hchild, -⟩ := h
      rw [List.tail_cons]
      cases habove : v.nodeOf above with
      | file content => simp [habove, Node.child?, Node.children] at hchild
      | directory children => rfl

theorem holds_origin? {start : Trail} (h : v.origin? p = some start) : v.Holds start := by
  rw [origin?] at h
  split at h
  · exact Option.some.inj h ▸ v.holds_nil
  · split at h
    · cases h
    · obtain ⟨location, -, hstart⟩ := Option.bind_eq_some_iff.mp h
      exact holds_enterAll v.holds_nil hstart

/-- A dot or two, or a slash at the end, lead to a directory. -/
theorem isName_of_step (h : v.Holds trail) (hstep : v.step trail part = some next)
    (hpart : '/' ∉ part) (hfile : (v.nodeOf next).isFile = true) : IsName part := by
  have hdirectory := isDirectory_nodeOf_of_step hstep
  have hnot : (v.nodeOf trail).isFile = false := by simp [Node.isFile, hdirectory]
  have hnext : (v.nodeOf next).isDirectory = false := by simpa [Node.isFile] using hfile
  refine ⟨?_, ?_, hpart⟩
  · rw [← Bool.not_eq_false]
    intro hsegment
    rw [step_of_not_isSegment hnot hsegment] at hstep
    obtain rfl := Option.some.inj hstep
    simp [hdirectory] at hnext
  · rintro rfl
    have htail : v.step trail ['.', '.'] = some trail.tail := by
      simp [step, hnot, Path.isSegment]
    obtain rfl := Option.some.inj (htail.symm.trans hstep)
    simp [isDirectory_tail h hdirectory] at hnext

theorem endsWithName_of_isFile (h : v.storage.isFile p = true) : p.EndsWithName := by
  obtain ⟨trail, hlocate, hfile⟩ := isFile_storage.mp h
  rw [locate_eq, Option.bind_eq_some_iff] at hlocate
  obtain ⟨start, hstart, hfollow⟩ := hlocate
  obtain ⟨front, last, hparts⟩ := (List.eq_nil_or_concat p.parts).resolve_left p.parts_ne_nil
  rw [List.concat_eq_append] at hparts
  rw [hparts, follow_append, Option.bind_eq_some_iff] at hfollow
  obtain ⟨before, hbefore, hlast⟩ := hfollow
  rw [follow_singleton] at hlast
  refine ⟨front, last, hparts, isName_of_step (holds_follow (holds_origin? hstart) hbefore) hlast ?_
    hfile⟩
  exact Text.not_mem_of_mem_splitOn (show last ∈ p.parts by simp [hparts])

theorem text_ne_empty_of_endsWithName (h : p.EndsWithName) : p.text ≠ "" := by
  obtain ⟨front, name, hparts, hname⟩ := h
  intro hp
  rw [Path.parts, hp] at hparts
  have hname' : name ∈ [[]] := by
    rw [show ([[]] : List (List Char)) = front ++ [name] from hparts]
    simp
  exact hname.ne_nil (List.mem_singleton.mp hname')

/-- How a path is spelled does not matter as long as it ends with a name. -/
theorem locate_eq_of_same (hsame : p.same q = true) (hp : p.EndsWithName) (hq : q.EndsWithName) :
    v.locate p = v.locate q := by
  obtain ⟨hstart, hsegments⟩ := Path.same_iff.mp hsame
  have hfollow : ∀ (r : Path) start, r.EndsWithName →
      v.follow start r.parts = v.follow start r.segments := by
    rintro r start ⟨front, last, hparts, hlast⟩
    rw [hparts, follow_segments start front hlast, Path.segments, hparts]
  have horigin : v.origin? p = v.origin? q := by
    simp [origin?, Path.isAbsolute_of_start hstart, text_ne_empty_of_endsWithName hp,
      text_ne_empty_of_endsWithName hq]
  rw [locate_eq, locate_eq, horigin]
  simp only [hfollow p _ hp, hfollow q _ hq, hsegments]

theorem content_eq_of_same (hsame : p.same q = true) (hp : p.EndsWithName) (hq : q.EndsWithName)
    (fault : Fault) : v.content fault p = v.content fault q := by
  rw [content, content, locate_eq_of_same hsame hp hq]

theorem isFile_of_same (h : v.storage.isFile p = true) (hsame : p.same q = true)
    (hq : q.EndsWithName) : v.storage.isFile q = true := by
  obtain ⟨trail, hlocate, hfile⟩ := isFile_storage.mp h
  rw [locate_eq_of_same hsame (endsWithName_of_isFile h) hq] at hlocate
  exact isFile_storage.mpr ⟨trail, hlocate, hfile⟩

theorem isFile_of_content {fault : Fault} {bytes : ByteArray}
    (h : v.content fault p = some bytes) : v.storage.isFile p = true := by
  obtain ⟨trail, htrail, hcontent⟩ := Option.bind_eq_some_iff.mp h
  refine isFile_storage.mpr ⟨trail, htrail, ?_⟩
  cases hnode : v.nodeOf trail with
  | file content => rfl
  | directory children => simp [hnode] at hcontent

theorem readsFilesOnly (v : Volume) : v.storage.ReadsFilesOnly :=
  fun _ _ h => isFile_of_content h

theorem isDirectory_of_child (hp : p.text ≠ "") (hname : IsName name)
    (h : v.storage.Holds (p.child (String.ofList name))) : v.storage.isDirectory p = true := by
  obtain ⟨next, hnext⟩ := holds_storage.mp h
  rw [locate_child hp hname, Option.bind_eq_some_iff] at hnext
  obtain ⟨trail, htrail, hstep⟩ := hnext
  exact isDirectory_storage.mpr ⟨trail, htrail, isDirectory_nodeOf_of_step hstep⟩

/-! ## Listings -/

section Listings

variable {children : List Path} {listed ghosts : List String} {ghost other : String}

theorem mem_insertName : other ∈ insertName ghost listed ↔ other = ghost ∨ other ∈ listed := by
  induction listed with
  | nil => simp [insertName]
  | cons first rest ih =>
      rw [insertName]
      split
      · rw [List.mem_cons]
      · split
        · rename_i hghost
          simp [hghost]
        · rw [List.mem_cons, ih, List.mem_cons, or_left_comm]

theorem ascending_insertName (h : listed.Pairwise (· < ·)) :
    (insertName ghost listed).Pairwise (· < ·) := by
  induction listed with
  | nil => simp [insertName]
  | cons first rest ih =>
      obtain ⟨hfirst, hrest⟩ := List.pairwise_cons.mp h
      rw [insertName]
      split
      · rename_i hlt
        refine List.pairwise_cons.mpr ⟨fun other hother => ?_, h⟩
        rcases List.mem_cons.mp hother with rfl | hother
        · exact hlt
        · exact String.lt_trans hlt (hfirst other hother)
      · split
        · exact h
        · rename_i hlt hne
          refine List.pairwise_cons.mpr ⟨fun other hother => ?_, ih hrest⟩
          rcases mem_insertName.mp hother with rfl | hother
          · exact NameMap.lt_of_not_lt_of_ne hlt hne
          · exact hfirst other hother

theorem mem_insertAll : other ∈ ghosts.foldl (fun names g => insertName g names) listed ↔
    other ∈ listed ∨ other ∈ ghosts := by
  induction ghosts generalizing listed with
  | nil => simp
  | cons ghost rest ih =>
      rw [List.foldl_cons, ih, mem_insertName, List.mem_cons]
      exact ⟨by rintro ((h | h) | h) <;> simp [h], by rintro (h | h | h) <;> simp [h]⟩

theorem ascending_insertAll (h : listed.Pairwise (· < ·)) :
    (ghosts.foldl (fun names g => insertName g names) listed).Pairwise (· < ·) := by
  induction ghosts generalizing listed with
  | nil => exact h
  | cons ghost rest ih => exact ih (ascending_insertName h)

theorem isName_of_mem_listedNames (hv : v.WellFormed) (h : v.Holds trail)
    (hother : other ∈ v.listedNames trail.location (v.nodeOf trail)) : IsName other.toList := by
  rcases mem_insertAll.mp hother with hother | hother
  · obtain ⟨c, hc, rfl⟩ := List.mem_map.mp hother
    exact (hv.root.at? (node?_location h)).isName c hc
  · obtain ⟨f, hf, hghost⟩ := List.mem_filterMap.mp hother
    rw [ghostIn?, Option.ite_none_right_eq_some] at hghost
    exact hv.ghosts f hf hghost.1.1 other (List.mem_of_getLast? hghost.2)

theorem ascending_listedNames (hv : v.WellFormed) (h : v.Holds trail) :
    (v.listedNames trail.location (v.nodeOf trail)).Pairwise (· < ·) :=
  ascending_insertAll (List.pairwise_map.mpr (hv.root.at? (node?_location h)).ascending)

theorem children_eq_some_iff : v.storage.children p = some children ↔
    ∃ trail, v.locate p = some trail ∧ (v.nodeOf trail).isDirectory = true ∧
      v.hasFault trail.location .list = false ∧
      (v.listedNames trail.location (v.nodeOf trail)).map p.child = children := by
  change v.childPaths p = _ ↔ _
  rw [childPaths, Option.bind_eq_bind, Option.bind_eq_some_iff]
  refine exists_congr fun trail => and_congr_right fun _ => ?_
  cases hnode : v.nodeOf trail with
  | file content => simp [Node.isDirectory]
  | directory entries => cases v.hasFault trail.location .list <;> simp [Node.isDirectory]

end Listings

theorem locate_descend (hp : p.text ≠ "") (hnames : ∀ name ∈ names, IsName name) :
    v.locate (p.descend names) = (v.locate p).bind fun trail => v.follow trail names := by
  induction names generalizing p with
  | nil => exact (Option.bind_fun_some _).symm
  | cons name rest ih =>
      obtain ⟨hname, hrest⟩ := List.forall_mem_cons.mp hnames
      rw [Path.descend_cons, ih (Path.text_child_ne_empty p hname) hrest, locate_child hp hname,
        Option.bind_assoc]
      rfl

theorem length_of_follow (hnames : ∀ name ∈ names, IsName name)
    (h : v.follow trail names = some next) : next.length = trail.length + names.length := by
  induction names generalizing trail with
  | nil =>
      obtain rfl := Option.some.inj h
      rfl
  | cons name rest ih =>
      obtain ⟨hname, hrest⟩ := List.forall_mem_cons.mp hnames
      rw [follow_cons, Option.bind_eq_some_iff] at h
      obtain ⟨below, hstep, hfollow⟩ := h
      have hnot : (v.nodeOf trail).isFile = false := by
        simp [Node.isFile, isDirectory_nodeOf_of_step hstep]
      rw [step_name hnot hname] at hstep
      obtain ⟨n, -, rfl⟩ := Option.map_eq_some_iff.mp hstep
      rw [ih hrest hfollow, List.length_cons, List.length_cons]
      omega

theorem boundsDepth (v : Volume) : v.storage.BoundsDepth := by
  intro p names hp hnames h
  obtain ⟨start, hstart, -⟩ := isDirectory_storage.mp hp
  obtain ⟨next, hnext, hdirectory⟩ := isDirectory_storage.mp h
  have hnode := node?_location (holds_locate hnext)
  rw [locate_descend (text_ne_empty_of_locate hstart) hnames, Option.bind_eq_some_iff] at hnext
  obtain ⟨trail, -, hfollow⟩ := hnext
  have hdepth := Node.length_lt_depth hnode hdirectory
  have hlength := length_of_follow hnames hfollow
  have hlocation : next.location.length = next.length := by simp [Trail.location]
  change names.length < v.root.depth
  omega

theorem lawful (hv : v.WellFormed) : v.storage.Lawful where
  text_ne_empty p h := by
    obtain ⟨trail, htrail, -⟩ := isDirectory_storage.mp h
    exact text_ne_empty_of_locate htrail
  isDirectory_of_isFile p h := by
    obtain ⟨trail, htrail, hfile⟩ := isFile_storage.mp h
    rw [← Bool.not_eq_true, isDirectory_storage]
    rintro ⟨trail', htrail', hdirectory⟩
    obtain rfl := Option.some.inj (htrail.symm.trans htrail')
    simp [Node.isFile, hdirectory] at hfile
  endsWithName_of_isFile p h := endsWithName_of_isFile h
  isFile_of_same p q h hsame hq := isFile_of_same h hsame hq
  readsFilesOnly := v.readsFilesOnly
  isDirectory_of_child p name hp hname h := isDirectory_of_child hp hname h
  isDirectory_of_children p children h := by
    obtain ⟨trail, htrail, hdirectory, -⟩ := children_eq_some_iff.mp h
    exact isDirectory_storage.mpr ⟨trail, htrail, hdirectory⟩
  children_eq p children h := by
    obtain ⟨trail, htrail, -, -, rfl⟩ := children_eq_some_iff.mp h
    have hholds := holds_locate htrail
    refine ⟨(v.listedNames trail.location (v.nodeOf trail)).map String.toList, ?_, ?_, ?_⟩
    · refine List.pairwise_map.mpr ((ascending_listedNames hv hholds).imp ?_)
      intro a b hlt heq
      exact String.lt_irrefl a (by rwa [← String.toList_inj.mp heq] at hlt)
    · intro name hname
      obtain ⟨other, hother, rfl⟩ := List.mem_map.mp hname
      exact isName_of_mem_listedNames hv hholds hother
    · simp
  mem_children p children name h hname hbelow := by
    obtain ⟨trail, htrail, hdirectory, -, rfl⟩ := children_eq_some_iff.mp h
    obtain ⟨next, hnext⟩ := holds_storage.mp hbelow
    rw [locate_child (text_ne_empty_of_locate htrail) hname, htrail, Option.bind_some,
      step_name (by simp [Node.isFile, hdirectory]) hname] at hnext
    obtain ⟨n, hn, -⟩ := Option.map_eq_some_iff.mp hnext
    exact List.mem_map.mpr ⟨_, mem_insertAll.mpr (.inl
      (List.mem_map.mpr ⟨_, Node.mem_of_child? hn, rfl⟩)), rfl⟩

/-! ## Volumes made of files -/

theorem isName_of_mem_locationOf (h : ['.', '.'] ∉ p.parts) :
    ∀ name ∈ locationOf p, IsName name.toList := by
  intro name hname
  obtain ⟨part, hpart, rfl⟩ := List.mem_map.mp hname
  rw [String.toList_ofList]
  exact Path.isName_of_mem_segments h hpart

theorem WellFormed.putAt (hv : v.WellFormed) {n : Node} (hn : n.WellFormed)
    (h : ['.', '.'] ∉ p.parts) :
    WellFormed { v with root := Node.put n (locationOf p) v.root } where
  root := hv.root.put hn (isName_of_mem_locationOf h)
  ghosts := hv.ghosts

theorem wellFormed_emptyDirectory : Node.emptyDirectory.WellFormed :=
  .directory .nil (by simp) (by simp)

/-- A volume made of files is well-formed unless a path goes up. -/
theorem wellFormed_ofFiles {files : List (Path × ByteArray)} {directories : List Path}
    (hfiles : ∀ f ∈ files, ['.', '.'] ∉ f.1.parts)
    (hdirectories : ∀ p ∈ directories, ['.', '.'] ∉ p.parts) :
    (ofFiles files directories).WellFormed := by
  rw [ofFiles]
  have hempty : WellFormed {} := ⟨wellFormed_emptyDirectory, by simp⟩
  have hwritten : (files.foldl (fun (v : Volume) f => v.write f.1 f.2) {}).WellFormed := by
    refine List.foldlRecOn files _ hempty fun v hv f hf => ?_
    exact hv.putAt (.file f.2) (hfiles f hf)
  refine List.foldlRecOn directories _ hwritten fun v hv p hp => ?_
  rw [makeDirectory]
  split
  · exact hv
  · exact hv.putAt wellFormed_emptyDirectory (hdirectories p hp)
end ModuleSearch.Volume
