import ModuleSearch.Proofs.Module.Listing
import ModuleSearch.Proofs.Storage.Subtree

/-!
# A directory confines its module

A resource of a module in a directory is read at the path of the directory and the name, whatever
text that is. `confined` says that this does not lead out of the directory: what is read is a
listed file, and nothing outside the directory makes a difference.
-/

open ModuleSearch.Path (IsName joined)

namespace ModuleSearch.Source

variable {v w : Volume} {directory : Path} {name above : String} {names : List String}
  {content : ByteArray}

/-- Without its empty parts and dots a name is one that is listed, and reads the same. -/
theorem read_joined_segments (hv : v.WellFormed)
    (hread : readExploded v.storage directory name = .ok (some content))
    (hlist : (exploded directory).list v.storage = .ok names) :
    joined (Path.mk name).segments ∈ names ∧
      readExploded v.storage directory (joined (Path.mk name).segments) = .ok (some content) := by
  have hs := Volume.lawful hv
  refine ⟨mem_list_of_readExploded hs hread hlist, ?_⟩
  obtain ⟨hinside, hfile, hcontent⟩ := readExploded_eq_some_iff.mp hread
  have hdirectory := text_ne_empty_of_list hs hlist
  obtain ⟨hne, hnames, -⟩ := isFile_descend_segments hs hdirectory hinside hfile
  obtain ⟨hsame, hends⟩ := same_child_segments hdirectory hinside hne
  have hlocate : v.locate _ = v.locate _ :=
    Volume.locate_eq_of_same hsame (hs.endsWithName_of_isFile _ hfile) hends
  refine readExploded_eq_some_iff.mpr ⟨?_, hs.isFile_of_same _ _ hfile hsame hends, ?_⟩
  · exact staysInside_of_canonical (isCanonical_joined hnames hne)
  · rw [← hcontent]
    change v.content .read _ = v.content .read _
    rw [Volume.content, Volume.content, hlocate]

theorem readExploded_congr (h : v.AgreesAt w directory) (hdirectory : directory.text ≠ "")
    (name : String) :
    readExploded v.storage directory name = readExploded w.storage directory name := by
  rw [readExploded_eq, readExploded_eq]
  cases hinside : staysInside name with
  | false => rfl
  | true =>
      obtain ⟨hrelative, hup⟩ := staysInside_iff.mp hinside
      have hchild := h.child hdirectory hrelative hup
      rw [hchild.isFile_eq, hchild.read_eq]

/-- Nothing is listed at what is no directory. -/
theorem children_eq_none (hdepth : ∀ n ∈ v.nodeAt? directory, n.depth ≤ 0) :
    v.storage.children directory = none := by
  rw [Option.eq_none_iff_forall_ne_some]
  intro children hchildren
  obtain ⟨trail, htrail, hnode, -⟩ := Volume.children_eq_some_iff.mp hchildren
  have hzero := hdepth (v.nodeOf trail) (by rw [Volume.nodeAt?, htrail]; rfl)
  cases h : v.nodeOf trail with
  | file content => simp [h, Node.isDirectory] at hnode
  | directory entries => simp [h, Node.depth] at hzero

theorem depth_le_of_child (hdirectory : directory.text ≠ "") {first : List Char}
    (hfirst : IsName first) {depth : Nat}
    (hdepth : ∀ n ∈ v.nodeAt? directory, n.depth ≤ depth + 1) :
    ∀ n ∈ v.nodeAt? (directory.child (String.ofList first)), n.depth ≤ depth := by
  intro n hn
  have hnames : ∀ name ∈ [first], IsName name := by simpa using hfirst
  have hchild := Volume.nodeAt?_descend (v := v) hdirectory hnames
  rw [Path.descend_cons, Path.descend_nil, Option.mem_def.mp hn] at hchild
  obtain ⟨above, habove, hat⟩ := Option.bind_eq_some_iff.mp hchild.symm
  obtain ⟨child, hlookup, hrest⟩ := Option.bind_eq_some_iff.mp hat
  obtain rfl := Option.some.inj hrest
  have hlt := Node.depth_lt_of_child? hlookup
  have hle := hdepth above habove
  omega

/-- Walks that go deep enough list the same, be they in different volumes. -/
theorem walk_congr (hv : v.WellFormed) (hw : w.WellFormed) {depth depth' : Nat}
    (h : v.AgreesAt w directory) (hdepth : ∀ n ∈ v.nodeAt? directory, n.depth ≤ depth)
    (hdepth' : ∀ n ∈ v.nodeAt? directory, n.depth ≤ depth') :
    walk v.storage depth above directory = walk w.storage depth' above directory := by
  have hs := Volume.lawful hv
  induction depth generalizing depth' above directory with
  | zero =>
      have hnone := children_eq_none hdepth
      rw [walk_of_children_eq_none hnone, walk_of_children_eq_none (h.children_eq hv hw ▸ hnone)]
  | succ depth ih =>
      cases depth' with
      | zero => rw [walk_of_children_eq_none (children_eq_none hdepth'), walk_zero]
      | succ depth' =>
          cases hchildren : v.storage.children directory with
          | none =>
              rw [walk_of_children_eq_none hchildren,
                walk_of_children_eq_none (h.children_eq hv hw ▸ hchildren)]
          | some children =>
              obtain ⟨listed, -, hlisted, rfl⟩ := hs.children_eq _ _ hchildren
              have hdirectory := hs.text_ne_empty _ (hs.isDirectory_of_children _ _ hchildren)
              rw [walk_succ hlisted hchildren,
                walk_succ hlisted (h.children_eq hv hw ▸ hchildren)]
              congr 1
              refine mapM_congr fun first hfirst => ?_
              have hname := hlisted first hfirst
              have hchild := h.child_ofName hdirectory hname
              rw [walkName, walkName, hchild.isDirectory_eq]
              split
              · exact ih hchild (depth_le_of_child hdirectory hname hdepth)
                  (depth_le_of_child hdirectory hname hdepth')
              · rfl

theorem list_congr (hv : v.WellFormed) (hw : w.WellFormed) (h : v.AgreesAt w directory) :
    (exploded directory).list v.storage = (exploded directory).list w.storage := by
  have hdepth : ∀ (u : Volume), ∀ n ∈ u.nodeAt? directory, n.depth ≤ u.storage.depth + 1 := by
    intro u n hn
    obtain ⟨trail, htrail, rfl⟩ := Option.map_eq_some_iff.mp hn
    have hat := Volume.node?_location (Volume.holds_locate htrail)
    exact Nat.le_trans (Node.depth_le_of_at? hat) (Nat.le_succ _)
  have hwalk : walk v.storage (v.storage.depth + 1) "" directory =
      walk w.storage (w.storage.depth + 1) "" directory :=
    walk_congr hv hw h (hdepth v) (h.nodeAt?_eq ▸ hdepth w)
  rw [list, list, unsortedNames, unsortedNames, hwalk]

/-- Reading a module in a directory does not lead out of it: every name under which a file is read
is, but for empty parts and dots, one that is listed, and the volume around the directory makes no
difference. -/
theorem confined (hv : v.WellFormed) (directory : Path) :
    (∀ (name : String) (content : ByteArray) (names : List String),
      (exploded directory).read v.storage name = .ok (some content) →
      (exploded directory).list v.storage = .ok names →
        joined (Path.mk name).segments ∈ names ∧
          (exploded directory).read v.storage (joined (Path.mk name).segments) =
            .ok (some content)) ∧
    ∀ w : Volume, w.WellFormed → v.SameAt w directory →
      (exploded directory).list v.storage = (exploded directory).list w.storage ∧
        ∀ name : String, (exploded directory).read v.storage name =
          (exploded directory).read w.storage name := by
  simp only [Source.read]
  refine ⟨fun name content names => read_joined_segments hv, fun w hw hsame => ?_⟩
  have hdirectory : directory.text ≠ "" := by
    obtain ⟨trail, -, htrail, -⟩ := hsame
    exact Volume.text_ne_empty_of_locate htrail
  exact ⟨list_congr hv hw hsame.agreesAt, readExploded_congr hsame.agreesAt hdirectory⟩

/-- The module in the directory `/m` does not depend on the archives around it. -/
theorem sameAt_withArchives (jar jmod image jar' jmod' image' : ByteArray) :
    (Volume.withArchives jar jmod image).SameAt (.withArchives jar' jmod' image') ⟨"/m"⟩ := by
  have hlocate (jar jmod image : ByteArray) :
      (Volume.withArchives jar jmod image).locate ⟨"/m"⟩ = some [("m",
        .directory [("A", .file "1".toUTF8), ("p", .directory [("B", .file .empty)])])] := by
    cbv
  exact ⟨_, _, hlocate jar jmod image, hlocate jar' jmod' image', rfl, fun _ _ => rfl⟩

theorem confined_sample :
    let v := Volume.contentSample
    let w := Volume.withArchives .empty .empty .empty
    v.WellFormed ∧ w.WellFormed ∧ v.SameAt w ⟨"/m"⟩ ∧
      (exploded ⟨"/m"⟩).read v.storage "./A" = .ok (some "1".toUTF8) ∧
      (exploded ⟨"/m"⟩).list v.storage = .ok ["A", "p/B"] ∧
      (exploded ⟨"/m"⟩).read v.storage "A" = .ok (some "1".toUTF8) ∧
      (exploded ⟨"/m"⟩).list w.storage = .ok ["A", "p/B"] ∧
      (exploded ⟨"/m"⟩).read w.storage "./A" = .ok (some "1".toUTF8) := by
  intro v w
  have hv : v.WellFormed := Volume.wellFormed_contentSample
  have hw : w.WellFormed := Volume.wellFormed_ofFiles (by decide +kernel) (by decide +kernel)
  have hsame : v.SameAt w ⟨"/m"⟩ := sameAt_withArchives _ _ _ _ _ _
  obtain ⟨hinside, hcongr⟩ := confined hv ⟨"/m"⟩
  obtain ⟨hlist, hread⟩ := hcongr w hw hsame
  exact ⟨hv, hw, hsame, read_contentSample, list_contentSample,
    (hinside "./A" _ _ read_contentSample list_contentSample).2,
    hlist ▸ list_contentSample, hread "./A" ▸ read_contentSample⟩

end ModuleSearch.Source
