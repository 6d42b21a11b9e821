import ModuleSearch.Proofs.Catalog.Candidates
import ModuleSearch.Proofs.Catalog.Entries
import ModuleSearch.Proofs.Module.ImageFiles
import ModuleSearch.Proofs.Storage.GraftChildren

/-!
# Children that make no difference

A module path takes no notice of a hidden child of a directory, nor of a file or a directory that is
no module, unless one of its entries leads through the child: `answers_of_gainsChild`.
-/

open ModuleSearch.Path (IsName)

namespace ModuleSearch

/-- A child that a module path takes no notice of. A hidden one may be anything. -/
inductive Inert (storage : Storage) (directory : Path) (name : String) : Prop
  | hidden (hname : name.toList.head? = some '.')
  | file {head : ByteArray} (hpresent : storage.isPresent (directory.child name) = true)
      (hfile : storage.isDirectory (directory.child name) = false)
      (hhead : storage.head (directory.child name) ArchiveFormat.signatureSize = some head)
      (hsignature : ArchiveFormat.ofSignature? head = none)
  | directory (hpresent : storage.isPresent (directory.child name) = true)
      (hdirectory : storage.isDirectory (directory.child name) = true)
      (hdescriptor : storage.isPresent ((directory.child name).child Document.fileName) = false)

variable {storage storage' : Storage} {decode : Decoder} {leads : Path → Prop} {name : String}
  {p : Path} {c : Candidate}

/-! ## Equal answers at one place -/

theorem Candidate.classify_congr (hp : storage.SameAt storage' p)
    (hdescriptor : storage.SameAt storage' (p.child Document.fileName)) :
    classify storage p = classify storage' p := by
  rw [classify, classify, classifyFile, classifyFile, hp.isPresent, hp.isDirectory, hp.head,
    hdescriptor.isPresent]

namespace Surroundings

theorem readCandidate_congr (hp : storage.SameAt storage' c.path)
    (hdescriptor : storage.SameAt storage' (c.path.child Document.fileName)) :
    readCandidate ⟨storage, decode⟩ c = readCandidate ⟨storage', decode⟩ c := by
  cases c with
  | packaged path format =>
      have hload : Archive.load storage path format = Archive.load storage' path format := by
        rw [Archive.load, Archive.load, show storage.read path = storage'.read path from hp.read]
      rw [readCandidate, readCandidate, readPackaged, readPackaged, hload]
      rfl
  | exploded directory =>
      have hread : storage.read (directory.child Document.fileName) =
          storage'.read (directory.child Document.fileName) := hdescriptor.read
      simp only [readCandidate, readExploded, hread]
      rfl
  | _ => rfl

end Surroundings

/-! ## The directory of the child -/

/-- What has a value that is not kept can be left out. -/
theorem map_filter_mapM_of_oneMore {ε α β : Type} {f : α → Except ε β} {keep : β → Bool} {a : α}
    {b : β} {xs ys : List α} (ha : f a = .ok b) (hb : keep b = false)
    (h : Storage.OneMore a xs ys) :
    (ys.mapM f).map (List.filter keep) = (xs.mapM f).map (List.filter keep) := by
  obtain ⟨front, back, rfl, rfl⟩ := h
  induction front with
  | nil =>
      rw [List.nil_append, List.nil_append, List.mapM_cons, ha]
      cases back.mapM f with
      | error e => rfl
      | ok bs => exact congrArg Except.ok (List.filter_cons_of_neg (by simp [hb]))
  | cons x front ih =>
      rw [List.cons_append, List.cons_append, List.mapM_cons, List.mapM_cons]
      cases f x with
      | error e => rfl
      | ok y =>
          change Except.map _ (((front ++ a :: back).mapM f).map (y :: ·)) =
            Except.map _ (((front ++ back).mapM f).map (y :: ·))
          generalize (front ++ a :: back).mapM f = after, (front ++ back).mapM f = before at ih ⊢
          cases after with
          | error e =>
              cases before with
              | error e' => exact ih
              | ok bs => cases ih
          | ok bs =>
              cases before with
              | error e => cases ih
              | ok bs' =>
                  have hkept := Except.ok.inj ih
                  exact congrArg Except.ok (by rw [List.filter_cons, List.filter_cons, hkept])

theorem filter_eq_of_oneMore {α : Type} {keep : α → Bool} {a : α} {xs ys : List α}
    (ha : keep a = false) (h : Storage.OneMore a xs ys) : ys.filter keep = xs.filter keep := by
  obtain ⟨front, back, rfl, rfl⟩ := h
  rw [List.filter_append, List.filter_append, List.filter_cons_of_neg (by simp [ha])]

theorem oneMore_filter {α : Type} {keep : α → Bool} {a : α} {xs ys : List α}
    (ha : keep a = true) (h : Storage.OneMore a xs ys) :
    Storage.OneMore a (xs.filter keep) (ys.filter keep) := by
  obtain ⟨front, back, rfl, rfl⟩ := h
  refine ⟨front.filter keep, back.filter keep, List.filter_append .., ?_⟩
  rw [List.filter_append, List.filter_cons_of_pos ha]

namespace Candidate

/-- A child of a directory as it is taken there. -/
def ofChild (storage : Storage) (child : Path) : Except SearchError Candidate :=
  (classify storage child).map nested

/-- The modules among the candidates of a directory. -/
def modulesIn (storage : Storage) (directory : Path) : Except SearchError (List Candidate) :=
  (inDirectory storage directory).map (List.filter isModule)

theorem modulesIn_eq {children : List Path} (h : storage.children p = some children) :
    modulesIn storage p =
      ((children.filter fun child => !isHidden child).mapM (ofChild storage)).map
        (List.filter isModule) := by
  rw [modulesIn, inDirectory, h]
  rfl

/-- A child that is not hidden is no module. -/
theorem exists_ofChild_of_inert (hname : IsName name.toList) (h : Inert storage p name)
    (hvisible : isHidden (p.child name) = false) :
    ∃ c, ofChild storage (p.child name) = .ok c ∧ c.isModule = false := by
  cases h with
  | hidden hdot =>
      have hhidden := isHidden_child p hname
      rw [String.ofList_toList, hvisible, hdot] at hhidden
      cases hhidden
  | file hpresent hfile hhead hsignature =>
      have hclassify : classify storage (p.child name) = .ok (.unrecognized (p.child name)) := by
        simp [classify, classifyFile, hpresent, hfile, hhead, hsignature]
      exact ⟨_, by rw [ofChild, hclassify]; rfl, rfl⟩
  | directory hpresent hdirectory hdescriptor =>
      have hclassify : classify storage (p.child name) = .ok (.directory (p.child name)) := by
        simp [classify, hpresent, hdirectory, hdescriptor]
      exact ⟨_, by rw [ofChild, hclassify]; rfl, rfl⟩

/-- One more child that makes no difference. -/
theorem modulesIn_eq_of_oneMore {before after : List Path} (hname : IsName name.toList)
    (hinert : Inert storage' p name) (hbefore : storage.children p = some before)
    (hafter : storage'.children p = some after)
    (hmore : Storage.OneMore (p.child name) before after)
    (hsame : ∀ q ∈ before, classify storage q = classify storage' q) :
    modulesIn storage p = modulesIn storage' p := by
  have hmapM : (before.filter fun child => !isHidden child).mapM (ofChild storage) =
      (before.filter fun child => !isHidden child).mapM (ofChild storage') := by
    refine mapM_congr fun q hq => ?_
    rw [ofChild, ofChild, hsame q (List.mem_of_mem_filter hq)]
  rw [modulesIn_eq hbefore, modulesIn_eq hafter, hmapM]
  cases hhidden : isHidden (p.child name) with
  | true => rw [filter_eq_of_oneMore (by simp [hhidden]) hmore]
  | false =>
      obtain ⟨c, hc, hmodule⟩ := exists_ofChild_of_inert hname hinert hhidden
      have hvisible : Storage.OneMore (p.child name) (before.filter fun child => !isHidden child)
          (after.filter fun child => !isHidden child) :=
        oneMore_filter (by simp [hhidden]) hmore
      exact (map_filter_mapM_of_oneMore hc hmodule hvisible).symm

end Candidate

theorem Surroundings.scanDirectory_eq (s : Surroundings) (directory : Path) :
    s.scanDirectory directory =
      Candidate.modulesIn s.storage directory >>= s.readCandidates directory [] := by
  rw [scanDirectory, Candidate.modulesIn]
  cases Candidate.inDirectory s.storage directory with
  | error e => rfl
  | ok candidates => exact (readCandidates_filter [] candidates).symm

namespace Storage.GainsChild

variable (h : storage.GainsChild storage' leads name) (hdescriptor : name ≠ Document.fileName)

include h hdescriptor

/-- The descriptor that would lie below a path is not the new child. -/
theorem sameAt_descriptor (hp : ¬ p.PassesThrough leads name) :
    storage.SameAt storage' (p.child Document.fileName) := by
  refine h.sameAt _ fun hpass => ?_
  have hfile : IsName Document.fileName.toList := by decide
  rw [← String.ofList_toList (s := Document.fileName)] at hpass
  rcases hpass.of_child hfile with hpass | ⟨heq, -⟩
  · exact hp hpass
  · exact hdescriptor (String.toList_inj.mp heq).symm

theorem classify_eq (hp : ¬ p.PassesThrough leads name) :
    Candidate.classify storage p = Candidate.classify storage' p :=
  Candidate.classify_congr (h.sameAt p hp) (h.sameAt_descriptor hdescriptor hp)

theorem readCandidate_eq (hc : ¬ c.path.PassesThrough leads name) :
    Surroundings.readCandidate ⟨storage, decode⟩ c =
      Surroundings.readCandidate ⟨storage', decode⟩ c :=
  Surroundings.readCandidate_congr (h.sameAt _ hc) (h.sameAt_descriptor hdescriptor hc)

variable (hname : IsName name.toList) (hinert : ∀ p, leads p → Inert storage' p name)

include hname hinert

/-- The same modules lie in a directory, also if it is the one that has the new child. -/
theorem modulesIn_eq (hp : ¬ p.PassesThrough leads name) :
    Candidate.modulesIn storage p = Candidate.modulesIn storage' p := by
  have hsame : ∀ children, storage.children p = some children → ∀ q ∈ children,
      Candidate.classify storage q = Candidate.classify storage' q := by
    intro children hchildren q hq
    exact h.classify_eq hdescriptor (h.unlisted p children hp hchildren q hq)
  by_cases hleads : leads p
  · have hrel := h.oneMore p hp hleads
    generalize hbefore : storage.children p = before, hafter : storage'.children p = after at hrel
    cases hrel with
    | none =>
        rw [Candidate.modulesIn, Candidate.modulesIn, Candidate.inDirectory, Candidate.inDirectory,
          hbefore, hafter]
    | some hmore =>
        exact Candidate.modulesIn_eq_of_oneMore hname (hinert p hleads) hbefore hafter hmore
          (hsame _ hbefore)
  · have hchildren := h.children_eq p hp hleads
    rw [Candidate.modulesIn, Candidate.modulesIn, Candidate.inDirectory, Candidate.inDirectory,
      ← hchildren]
    cases hbefore : storage.children p with
    | none => rfl
    | some children =>
        refine congrArg (Except.map _) (mapM_congr fun q hq => ?_)
        rw [hsame children hbefore q (List.mem_of_mem_filter hq)]

theorem scanDirectory_eq (hp : ¬ p.PassesThrough leads name) :
    Surroundings.scanDirectory ⟨storage, decode⟩ p =
      Surroundings.scanDirectory ⟨storage', decode⟩ p := by
  rw [Surroundings.scanDirectory_eq, Surroundings.scanDirectory_eq]
  change Candidate.modulesIn storage p >>= _ = Candidate.modulesIn storage' p >>= _
  rw [← h.modulesIn_eq hdescriptor hname hinert hp]
  cases hmodules : Candidate.modulesIn storage p with
  | error e => rfl
  | ok candidates =>
      obtain ⟨all, hall, rfl⟩ := map_eq_ok_iff.mp hmodules
      refine Surroundings.readCandidates_congr (fun c hc => ?_) []
      obtain ⟨hmem, hmodule⟩ := List.mem_filter.mp hc
      obtain ⟨-, children, hchildren, hchild⟩ := Candidate.of_mem_inDirectory hall hmem hmodule
      exact h.readCandidate_eq hdescriptor (h.unlisted p children hp hchildren _ hchild)

theorem scan_eq (hp : ¬ p.PassesThrough leads name) :
    Surroundings.scan ⟨storage, decode⟩ p = Surroundings.scan ⟨storage', decode⟩ p := by
  rw [Surroundings.scan, Surroundings.scan]
  change Candidate.classify storage p >>= _ = Candidate.classify storage' p >>= _
  rw [← h.classify_eq hdescriptor hp]
  cases hclassify : Candidate.classify storage p with
  | error e => rfl
  | ok c =>
      change Surroundings.scanCandidate _ c = Surroundings.scanCandidate _ c
      have hpath := Candidate.path_of_classify hclassify
      have hread : Surroundings.readCandidate ⟨storage, decode⟩ c =
          Surroundings.readCandidate ⟨storage', decode⟩ c :=
        h.readCandidate_eq hdescriptor (hpath ▸ hp)
      cases c with
      | absent path => rfl
      | unrecognized path => rfl
      | directory path =>
          obtain rfl : path = p := hpath
          exact h.scanDirectory_eq hdescriptor hname hinert hp
      | packaged path format => exact congrArg (Except.map Option.toList) hread
      | exploded path => exact congrArg (Except.map Option.toList) hread

end Storage.GainsChild

/-- A file whose first bytes can be read and are those of no archive. -/
theorem Volume.Lacks.inert_file {v : Volume} {place : Location} {content : ByteArray}
    {faults : List (Location × Fault)} (h : v.Lacks place name) (hv : v.WellFormed)
    (hname : IsName name.toList)
    (hfault : (v.withChild place name (.file content) faults).hasFault (place ++ [name]) .head =
      false)
    (hsignature : ArchiveFormat.ofSignature? (content.extract 0 ArchiveFormat.signatureSize) = none)
    (hleads : v.LeadsTo place p) :
    Inert (v.withChild place name (.file content) faults).storage p name := by
  obtain ⟨trail, htrail, hlocation, hnode⟩ :=
    h.exists_locate_child hv hname hleads (.file content) faults
  have hhead : (v.withChild place name (.file content) faults).storage.head (p.child name)
      ArchiveFormat.signatureSize = some (content.extract 0 ArchiveFormat.signatureSize) := by
    simp [Volume.storage, Volume.content, htrail, hnode, hlocation, hfault]
  refine .file ?_ ?_ hhead hsignature
  · simp [Volume.storage, Volume.nodeAt?, htrail]
  · simp [Volume.storage, Volume.nodeAt?, htrail, hnode, Node.isDirectory]

namespace Catalog

variable {entries : List Path}

/-- A child that is hidden or no module changes neither an answer nor an error of a module path
whose entries do not lead through it. -/
theorem answers_of_gainsChild (h : storage.GainsChild storage' leads name)
    (hname : IsName name.toList) (hdescriptor : name ≠ Document.fileName)
    (hinert : ∀ directory, leads directory → Inert storage' directory name)
    (hentries : ∀ p ∈ entries, ¬ p.PassesThrough leads name) (queries : List Query) :
    (ofEntries entries).answers (queries.map (Step.mk ⟨storage, decode⟩)) =
      (ofEntries entries).answers (queries.map (Step.mk ⟨storage', decode⟩)) := by
  have hsurvey : surveyOf ⟨storage, decode⟩ entries = surveyOf ⟨storage', decode⟩ entries := by
    refine Scanner.surveyFrom_congr (fun scan hscan => ?_) _
    obtain ⟨p, hp, rfl⟩ := List.mem_map.mp hscan
    exact h.scan_eq hdescriptor hname hinert (hentries p hp)
  rw [answers_ofEntries_eq, answers_ofEntries_eq, hsurvey]

/-- A module `m` in the directory of modules `/d`. -/
def moduleVolume : Volume :=
  .ofFiles [(⟨"/d/m/module-info.json"⟩, "\x7b\"name\":\"m\"\x7d".toUTF8)] []

theorem wellFormed_moduleVolume : moduleVolume.WellFormed :=
  Volume.wellFormed_ofFiles (by decide +kernel) (by simp)

theorem lacks_moduleVolume : moduleVolume.Lacks ["d"] "notes" where
  isDirectory := ⟨[("m", .directory
    [("module-info.json", .file "\x7b\"name\":\"m\"\x7d".toUTF8)])], by cbv⟩
  node? := by cbv
  hasFault := rfl
  notWithin := by simp [moduleVolume, Volume.ofFiles, Volume.write]

theorem answers_of_gainsChild_sample :
    let v := moduleVolume
    let w := v.withChild ["d"] "notes" (.file "text".toUTF8) []
    let entries : List Path := [⟨"/d"⟩, ⟨"/none"⟩]
    let run := [Query.find "m", .find "n", .findAll]
    let m : LocatedModule := ⟨LocatedModule.sample.descriptor, .exploded ⟨"/d/m"⟩⟩
    v.storage.GainsChild w.storage (v.LeadsTo ["d"]) "notes" ∧
      (∀ directory, v.LeadsTo ["d"] directory → Inert w.storage directory "notes") ∧
      (∀ p ∈ entries, ¬ p.PassesThrough (v.LeadsTo ["d"]) "notes") ∧
      (ofEntries entries).answers (run.map (Step.mk ⟨v.storage, Descriptor.decode⟩)) =
        [.ok (.one (some m)), .ok (.one none), .ok (.all [m])] ∧
      (ofEntries entries).answers (run.map (Step.mk ⟨w.storage, Descriptor.decode⟩)) =
        [.ok (.one (some m)), .ok (.one none), .ok (.all [m])] := by
  intro v w entries run m
  have hv : v.WellFormed := wellFormed_moduleVolume
  have hlacks : v.Lacks ["d"] "notes" := lacks_moduleVolume
  have hname : IsName "notes".toList := by decide
  have hw : w.WellFormed := hlacks.wellFormed hv hname (.file _) (by simp)
  have hgains := (hlacks.gainsChild hv).storage hv hw hname
  have hinert : ∀ directory, v.LeadsTo ["d"] directory → Inert w.storage directory "notes" := by
    intro directory hleads
    exact hlacks.inert_file hv hname (by decide +kernel) (by decide +kernel) hleads
  have hentries : ∀ p ∈ entries, ¬ p.PassesThrough (v.LeadsTo ["d"]) "notes" := by
    have hnot : ∀ p ∈ ([⟨"/d"⟩, ⟨"/none"⟩] : List Path), "notes".toList ∉ p.parts := by decide
    rintro p hp ⟨front, back, hparts, -⟩
    exact hnot p hp (by simp [hparts])
  have hanswers : (ofEntries entries).answers (run.map (Step.mk ⟨v.storage, Descriptor.decode⟩)) =
      (ofEntries entries).answers (run.map (Step.mk ⟨w.storage, Descriptor.decode⟩)) :=
    answers_of_gainsChild hgains hname (by decide) hinert hentries run
  have hvalues : (ofEntries entries).answers (run.map (Step.mk ⟨w.storage, Descriptor.decode⟩)) =
      [.ok (.one (some m)), .ok (.one none), .ok (.all [m])] := by
    decide +kernel
  exact ⟨hgains, hinert, hentries, hanswers.trans hvalues, hvalues⟩

end Catalog

end ModuleSearch
