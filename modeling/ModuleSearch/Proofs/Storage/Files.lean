import ModuleSearch.Proofs.NameMap
import ModuleSearch.Proofs.Storage.Volume

/-!
# The files below a directory

Files below a directory are named by the way down to them. `Volume.holdsFiles` says which ones a
volume holds below a path.
-/

open ModuleSearch.Path (IsName joined)

namespace ModuleSearch

/-- A resource name is canonical if all its parts are names. -/
def IsCanonical (name : String) : Prop := ∀ part ∈ (Path.mk name).parts, IsName part

instance (name : String) : Decidable (IsCanonical name) :=
  inferInstanceAs (Decidable (∀ part ∈ _, _))

variable {name : String} {names : List (List Char)}

theorem IsCanonical.exists_names (h : IsCanonical name) :
    ∃ names, names ≠ [] ∧ (∀ name ∈ names, IsName name) ∧ name = joined names :=
  ⟨(Path.mk name).parts, Path.parts_ne_nil _, h, (Path.joined_parts name).symm⟩

theorem isCanonical_joined (h : ∀ name ∈ names, IsName name) (hne : names ≠ []) :
    IsCanonical (joined names) := by
  rw [IsCanonical, Path.parts_joined h hne]
  exact h

/-- The files below a directory are these. Each directory below can be listed, and nothing but
files and directories lies there. -/
structure Storage.HoldsFiles (storage : Storage) (directory : Path) (files : NameMap ByteArray) :
    Prop where
  isDirectory : storage.isDirectory directory = true
  isFile : ∀ name, IsCanonical name →
    (storage.isFile (directory.child name) = true ↔ name ∈ files.keys)
  read : ∀ name content, files.get? name = some content →
    storage.read (directory.child name) = some content
  listed : ∀ names, (∀ name ∈ names, IsName name) →
    storage.isDirectory (directory.descend names) = true →
      ∃ children, storage.children (directory.descend names) = some children ∧
        ∀ child ∈ children, storage.Holds child

/-- Nothing lies below a directory but these files and the directories on the way to them. -/
structure Storage.HoldsOnly (storage : Storage) (directory : Path) (files : NameMap ByteArray) :
    Prop extends storage.HoldsFiles directory files where
  isPresent : ∀ names, (∀ name ∈ names, IsName name) →
    (storage.isPresent (directory.descend names) = true ↔
      storage.Holds (directory.descend names))
  exists_file : ∀ names, names ≠ [] → (∀ name ∈ names, IsName name) →
    storage.isDirectory (directory.descend names) = true →
      ∃ rest, rest ≠ [] ∧ (∀ name ∈ rest, IsName name) ∧ joined (names ++ rest) ∈ files.keys

namespace Node

variable {n : Node}

theorem isName_of_at? {m : Node} {location : Location} (h : n.WellFormed)
    (hm : n.at? location = some m) : ∀ name ∈ location, IsName name.toList := by
  induction location generalizing n with
  | nil => simp
  | cons name rest ih =>
      obtain ⟨child, hchild, hrest⟩ := Option.bind_eq_some_iff.mp hm
      have hmem := mem_of_child? hchild
      exact List.forall_mem_cons.mpr ⟨h.isName _ hmem, ih (h.children _ hmem) hrest⟩

theorem location_ne_nil (hn : n.isDirectory = true) {location : Location} {content : ByteArray}
    (h : n.at? location = some (file content)) : location ≠ [] := by
  rintro rfl
  obtain rfl := Option.some.inj h
  cases hn

/-- The files of a directory by their names from there. -/
def resources (n : Node) : NameMap ByteArray :=
  .ofList (n.files.map fun f => (joined (f.1.map String.toList), f.2))

theorem get?_resources (h : n.WellFormed) (hn : n.isDirectory = true) {content : ByteArray} :
    n.resources.get? name = some content ↔
      ∃ names, names ≠ [] ∧ (∀ name ∈ names, IsName name) ∧ joined names = name ∧
        n.at? (names.map String.ofList) = some (file content) := by
  have hfile : ∀ f ∈ n.files, f.1.map String.toList ≠ [] ∧
      ∀ name ∈ f.1.map String.toList, IsName name := by
    intro f hf
    have hat := (mem_files h).mp hf
    exact ⟨by simpa using location_ne_nil hn hat, by simpa using isName_of_at? h hat⟩
  rw [resources, NameMap.get?_ofList_eq_some_iff, List.mem_map]
  · constructor
    · rintro ⟨f, hf, heq⟩
      obtain ⟨hname, rfl⟩ := Prod.mk.inj heq
      obtain ⟨hne, hnames⟩ := hfile f hf
      exact ⟨f.1.map String.toList, hne, hnames, hname, by simpa using (mem_files h).mp hf⟩
    · rintro ⟨names, -, -, rfl, hat⟩
      exact ⟨_, (mem_files h).mpr hat, by simp⟩
  · intro a ha b hb heq
    obtain ⟨⟨location, content⟩, hf, rfl⟩ := List.mem_map.mp ha
    obtain ⟨⟨location', content'⟩, hf', rfl⟩ := List.mem_map.mp hb
    obtain ⟨hne, hnames⟩ := hfile _ hf
    obtain ⟨hne', hnames'⟩ := hfile _ hf'
    have hparts := Path.joined_injective hnames hne hnames' hne' heq
    obtain rfl : location = location' :=
      List.map_injective_iff.mpr (fun _ _ => String.toList_inj.mp) hparts
    have hcontent := ((mem_files h).mp hf).symm.trans ((mem_files h).mp hf')
    obtain rfl : content = content' := by simpa using hcontent
    rfl

end Node

namespace Volume

variable {v : Volume} {p : Path}

theorem nodeOf_follow (trail : Trail) (hnames : ∀ name ∈ names, IsName name) :
    (v.follow trail names).map v.nodeOf = (v.nodeOf trail).at? (names.map String.ofList) := by
  induction names generalizing trail with
  | nil => rfl
  | cons name rest ih =>
      obtain ⟨hname, hrest⟩ := List.forall_mem_cons.mp hnames
      rw [follow_cons, List.map_cons, Node.at?]
      cases hnode : (v.nodeOf trail).isFile with
      | true =>
          have hchild : (v.nodeOf trail).child? (String.ofList name) = none := by
            cases hfile : v.nodeOf trail with
            | file content => rfl
            | directory children => simp [hfile, Node.isFile, Node.isDirectory] at hnode
          rw [step_of_isFile hnode, hchild]
          rfl
      | false =>
          rw [step_name hnode hname, enter, Option.map_bind, Option.bind_map]
          congr 1
          funext child
          exact ih _ hrest

theorem nodeAt?_descend (hp : p.text ≠ "") (hnames : ∀ name ∈ names, IsName name) :
    v.nodeAt? (p.descend names) =
      (v.nodeAt? p).bind fun n => n.at? (names.map String.ofList) := by
  rw [nodeAt?, locate_descend hp hnames, nodeAt?, Option.map_bind, Option.bind_map]
  congr 1
  funext trail
  exact nodeOf_follow trail hnames

theorem isFile_iff_nodeAt? :
    v.storage.isFile p = true ↔ ∃ content, v.nodeAt? p = some (.file content) := by
  change (v.nodeAt? p).any Node.isFile = true ↔ _
  cases v.nodeAt? p with
  | none => simp
  | some m => cases m <;> simp [Node.isFile, Node.isDirectory]

theorem read_storage (hfaults : v.faults = []) {content : ByteArray}
    (h : v.nodeAt? p = some (.file content)) : v.storage.read p = some content := by
  obtain ⟨trail, htrail, hnode⟩ := Option.map_eq_some_iff.mp h
  change v.content .read p = _
  simp [Volume.content, htrail, hnode, hasFault, hfaults]

/-- A volume without faults lists a directory, and all that it lists is there. -/
theorem exists_children (hv : v.WellFormed) (hfaults : v.faults = [])
    (h : v.storage.isDirectory p = true) :
    ∃ children, v.storage.children p = some children ∧
      ∀ child ∈ children, v.storage.Holds child := by
  obtain ⟨trail, htrail, hdirectory⟩ := isDirectory_storage.mp h
  have hholds := holds_locate htrail
  refine ⟨_, children_eq_some_iff.mpr
    ⟨trail, htrail, hdirectory, by simp [hasFault, hfaults], rfl⟩, fun child hchild => ?_⟩
  obtain ⟨name, hname, rfl⟩ := List.mem_map.mp hchild
  have hisName := isName_of_mem_listedNames hv hholds hname
  rw [listedNames, hfaults] at hname
  obtain ⟨c, hc, rfl⟩ := List.mem_map.mp hname
  have hfound := (Node.child?_eq_some_iff (hv.root.at? (node?_location hholds))).mpr hc
  refine holds_storage.mpr ⟨c :: trail, ?_⟩
  rw [← String.ofList_toList (s := c.1), locate_child (text_ne_empty_of_locate htrail) hisName,
    htrail, Option.bind_some, step_name (by simp [Node.isFile, hdirectory]) hisName,
    String.ofList_toList, enter, hfound]
  rfl

/-- The files below a path. -/
def resources (v : Volume) (p : Path) : NameMap ByteArray :=
  (v.nodeAt? p).elim .empty Node.resources

theorem holdsFiles (hv : v.WellFormed) (hfaults : v.faults = [])
    (hdirectory : v.storage.isDirectory p = true) : v.storage.HoldsFiles p (v.resources p) := by
  obtain ⟨trail, htrail, hn⟩ := isDirectory_storage.mp hdirectory
  have hp := text_ne_empty_of_locate htrail
  have hnode := hv.root.at? (node?_location (holds_locate htrail))
  have h : v.nodeAt? p = some (v.nodeOf trail) := by rw [nodeAt?, htrail, Option.map_some]
  have hbelow : ∀ names, names ≠ [] → (∀ name ∈ names, IsName name) →
      v.nodeAt? (p.child (joined names)) =
        (v.nodeOf trail).at? (names.map String.ofList) := by
    intro names hne hnames
    rw [← Path.descend_eq_child hnames hne, nodeAt?_descend hp hnames, h, Option.bind_some]
  rw [resources, h, Option.elim_some]
  refine ⟨hdirectory, fun name hname => ?_, fun name content hcontent => ?_,
    fun names hnames hdown => exists_children hv hfaults hdown⟩
  · obtain ⟨names, hne, hnames, rfl⟩ := hname.exists_names
    rw [isFile_iff_nodeAt?, hbelow names hne hnames, NameMap.mem_keys, Option.isSome_iff_exists]
    refine exists_congr fun content => ?_
    rw [Node.get?_resources hnode hn]
    constructor
    · exact fun hat => ⟨names, hne, hnames, rfl, hat⟩
    · rintro ⟨names', hne', hnames', heq, hat⟩
      obtain rfl := Path.joined_injective hnames' hne' hnames hne heq
      exact hat
  · obtain ⟨names, hne, hnames, rfl, hat⟩ := (Node.get?_resources hnode hn).mp hcontent
    exact read_storage hfaults ((hbelow names hne hnames).trans hat)

/-- A volume without faults and without empty directories below a path holds only files there. -/
theorem holdsOnly (hv : v.WellFormed) (hfaults : v.faults = [])
    (hdirectory : v.storage.isDirectory p = true)
    (hdense : ∀ n ∈ v.nodeAt? p, ∀ c ∈ n.children, c.2.Dense) :
    v.storage.HoldsOnly p (v.resources p) := by
  refine { holdsFiles hv hfaults hdirectory with isPresent := ?_, exists_file := ?_ }
  · intro names hnames
    rw [holds_storage, ← Option.isSome_iff_exists]
    change (v.nodeAt? _).isSome = true ↔ _
    rw [nodeAt?, Option.isSome_map]
  · intro names hne hnames hbelow
    obtain ⟨trail, htrail, hn⟩ := isDirectory_storage.mp hdirectory
    obtain ⟨trail', htrail', hm⟩ := isDirectory_storage.mp hbelow
    have hnode : v.nodeAt? p = some (v.nodeOf trail) := by rw [nodeAt?, htrail, Option.map_some]
    have hat : (v.nodeOf trail).at? (names.map String.ofList) = some (v.nodeOf trail') := by
      rw [← Option.bind_some (f := fun n : Node => n.at? _), ← hnode,
        ← nodeAt?_descend (text_ne_empty_of_locate htrail) hnames, nodeAt?, htrail',
        Option.map_some]
    have hwell := hv.root.at? (node?_location (holds_locate htrail))
    -- what lies at a name is without empty directories, and so is all below it
    have hfull : (v.nodeOf trail').Dense := by
      obtain ⟨first, rest, rfl⟩ := List.exists_cons_of_ne_nil hne
      obtain ⟨child, hchild, hrest⟩ := Option.bind_eq_some_iff.mp hat
      exact (hdense _ hnode _ (Node.mem_of_child? hchild)).at? hrest
    obtain ⟨location, content, hfile⟩ := hfull.exists_file
    have hnames' := Node.isName_of_at? (hwell.at? hat) hfile
    have hfound : (v.nodeOf trail).at? ((names ++ location.map String.toList).map String.ofList) =
        some (.file content) := by
      rw [List.map_append, Node.at?_append, hat, Option.bind_some]
      simpa using hfile
    refine ⟨location.map String.toList, by simpa using Node.location_ne_nil hm hfile,
      by simpa using hnames', ?_⟩
    rw [resources, hnode, Option.elim_some, NameMap.mem_keys, Option.isSome_iff_exists]
    refine ⟨content, (Node.get?_resources hwell hn).mpr ⟨_, by simp [hne], ?_, rfl, hfound⟩⟩
    exact List.forall_mem_append.mpr ⟨hnames, by simpa using hnames'⟩

end Volume

end ModuleSearch
