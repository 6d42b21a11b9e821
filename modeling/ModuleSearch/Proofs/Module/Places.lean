import ModuleSearch.Candidate
import ModuleSearch.Proofs.Module.Discovery
import ModuleSearch.Proofs.Module.Location
import ModuleSearch.Proofs.Storage.Volume

/-!
# One place, one name

A file or a directory may be reached by several paths, which differ in empty parts and single dots.
What is read there is the same, and so is the name of the module that it holds, even one that is
derived from the name of the file: `name_eq_of_samePlace`.
-/

namespace ModuleSearch

variable {v : Volume} {p q : Path} {m n : LocatedModule}

/-! ## Reading a place -/

namespace Path

theorem endsWithName_document (hp : p.text ≠ "") : (p.child Document.fileName).EndsWithName :=
  (endsWithName_child_iff hp (by decide)).mpr ⟨[], Document.fileName.toList, by decide +kernel,
    isName_fileName⟩

theorem same_document (hp : p.text ≠ "") (hq : q.text ≠ "") (h : p.same q = true) :
    (p.child Document.fileName).same (q.child Document.fileName) = true := by
  have hrelative : (Path.mk Document.fileName).isAbsolute = false := by decide
  obtain ⟨hstart, hsegments⟩ := same_iff.mp h
  refine same_iff.mpr ⟨?_, ?_⟩
  · rw [start_child hp hrelative, start_child hq hrelative, hstart]
  · rw [segments_child hrelative, segments_child hrelative, hsegments]

theorem fileName?_eq_of_same (h : p.same q = true) : p.fileName? = q.fileName? := by
  rw [fileName?, fileName?, eq_of_beq h]

end Path

namespace Archive

variable {storage : Storage} {format : ArchiveFormat} {bytes : ByteArray} {a : Archive}
  {name : String} {content : Option ByteArray}

theorem zipBytes_moved {zipped : ByteArray} (h : zipBytes p format bytes = .ok zipped) (q : Path) :
    zipBytes q format bytes = .ok zipped := by
  cases format with
  | jmod =>
      rw [zipBytes] at h ⊢
      split at h
      · rwa [if_pos ‹_›]
      · cases h
  | jar => exact h
  | image => exact h

theorem ofBytes_moved (h : ofBytes p format bytes = .ok a) (q : Path) :
    ofBytes q format bytes = .ok { a with path := q } := by
  obtain ⟨zipped, hzipped, h⟩ := bind_eq_ok_iff.mp h
  refine bind_eq_ok_iff.mpr ⟨zipped, zipBytes_moved hzipped q, ?_⟩
  cases hzip : Zip.parse? zipped with
  | none => simp [hzip] at h
  | some zip =>
      simp only [hzip] at h ⊢
      obtain rfl := Except.ok.inj h
      rfl

/-- Where an archive lies shows only in errors. -/
theorem load_of_read_eq (hread : storage.read p = storage.read q)
    (h : load storage p format = .ok a) : load storage q format = .ok { a with path := q } := by
  rw [load] at h ⊢
  rw [← hread]
  cases hbytes : storage.read p with
  | none => simp [hbytes] at h
  | some bytes =>
      rw [hbytes] at h
      exact ofBytes_moved h q

theorem read_moved (h : a.read name = .ok content) (q : Path) :
    { a with path := q }.read name = .ok content := by
  have hread := read_eq_ok_iff.mp h
  exact read_eq_ok_iff.mpr hread

end Archive

namespace Source

variable {content : Option ByteArray}

theorem read_packaged_of_same {format : ArchiveFormat} {name : String} (hsame : p.same q = true)
    (hp : p.EndsWithName) (hq : q.EndsWithName)
    (h : (packaged p format).read v.storage name = .ok content) :
    (packaged q format).read v.storage name = .ok content := by
  obtain ⟨a, hload, hread⟩ := bind_eq_ok_iff.mp h
  have hbytes : v.storage.read p = v.storage.read q := Volume.content_eq_of_same hsame hp hq .read
  exact bind_eq_ok_iff.mpr ⟨_, Archive.load_of_read_eq hbytes hload, Archive.read_moved hread q⟩

theorem read_exploded_of_same (hsame : p.same q = true) (hp : p.text ≠ "") (hq : q.text ≠ "")
    (h : (exploded p).read v.storage Document.fileName = .ok content) :
    (exploded q).read v.storage Document.fileName = .ok content := by
  have hdocument := Path.same_document hp hq hsame
  have hendp := Path.endsWithName_document hp
  have hendq := Path.endsWithName_document hq
  have hbytes : v.storage.read (p.child Document.fileName) =
      v.storage.read (q.child Document.fileName) :=
    Volume.content_eq_of_same hdocument hendp hendq .read
  have hfile : v.storage.isFile (p.child Document.fileName) =
      v.storage.isFile (q.child Document.fileName) := by
    change (v.nodeAt? _).any _ = (v.nodeAt? _).any _
    rw [Volume.nodeAt?, Volume.nodeAt?, Volume.locate_eq_of_same hdocument hendp hendq]
  rw [read, readExploded_eq] at h ⊢
  rw [← hfile, ← hbytes]
  split at h
  · rwa [if_pos ‹_›]
  · rw [if_neg ‹_›]
    split at h
    · exact h
    · cases h

end Source

namespace Candidate

variable {format format' : ArchiveFormat}

/-- What is taken for a file that holds a module starts with a signature. -/
theorem signature_of_classify (h : classify v.storage p = .ok (.packaged p format)) :
    ∃ bytes, v.content .head p = some bytes ∧
      ArchiveFormat.ofSignature? (bytes.extract 0 ArchiveFormat.signatureSize) = some format := by
  rw [classify] at h
  split at h
  · cases h
  · split at h
    · split at h <;> cases h
    · rw [classifyFile] at h
      split at h
      · cases h
      · rename_i head hhead
        obtain ⟨bytes, hbytes, rfl⟩ := Option.map_eq_some_iff.mp hhead
        refine ⟨bytes, hbytes, ?_⟩
        split at h
        · cases Except.ok.inj h
          assumption
        · cases h

theorem endsWithName_of_classify (h : classify v.storage p = .ok (.packaged p format)) :
    p.EndsWithName := by
  obtain ⟨bytes, hbytes, -⟩ := signature_of_classify h
  exact Volume.endsWithName_of_isFile (Volume.isFile_of_content hbytes)

theorem format_eq_of_classify (hsame : p.same q = true)
    (h : classify v.storage p = .ok (.packaged p format))
    (h' : classify v.storage q = .ok (.packaged q format')) : format = format' := by
  obtain ⟨bytes, hbytes, hformat⟩ := signature_of_classify h
  obtain ⟨bytes', hbytes', hformat'⟩ := signature_of_classify h'
  rw [Volume.content_eq_of_same hsame (endsWithName_of_classify h) (endsWithName_of_classify h')
    .head, hbytes', Option.some.injEq] at hbytes
  rw [hbytes, hformat] at hformat'
  exact Option.some.inj hformat'

end Candidate

/-! ## The module at a place -/

namespace LocatedModule

/-- The path is absolute, and the module is what lies there; a module in an image lies there under
its own name. -/
def LiesIn (storage : Storage) (m : LocatedModule) : Prop :=
  match m.source with
  | .packaged path format =>
    path.isAbsolute = true ∧ Candidate.classify storage path = .ok (.packaged path format)
  | .exploded directory => directory.isAbsolute = true
  | .image _ module => module = m.name

variable {s : Surroundings}

theorem isLocated_of_liesIn (hlegal : s.decode.Legal) (h : m.LiesIn v.storage)
    (hread : m.IsReadFrom s) : m.source.IsLocated := by
  obtain ⟨d, source⟩ := m
  cases source with
  | packaged path format => exact ⟨h.1, Candidate.endsWithName_of_classify h.2⟩
  | exploded directory => exact h
  | image path module =>
      obtain rfl : module = d.name := h
      rcases hread with ⟨document, -, hdecode⟩ | ⟨path', archive, hsource, -⟩
      · exact hlegal document d hdecode
      · cases hsource

/-- Modules whose documents are the same have one name, unless there is no document and both are
derived from JARs. -/
theorem IsReadFrom.name_eq_or (h : m.IsReadFrom s) (h' : n.IsReadFrom s)
    (hcarry : ∀ content, m.source.read s.storage Document.fileName = .ok content →
      n.source.read s.storage Document.fileName = .ok content) :
    m.name = n.name ∨ ∃ p q a b, m.source = .packaged p .jar ∧ n.source = .packaged q .jar ∧
      Archive.load s.storage p .jar = .ok a ∧ Archive.load s.storage q .jar = .ok b ∧
      Automatic.descriptor a = .ok m.descriptor ∧ Automatic.descriptor b = .ok n.descriptor := by
  rcases h with ⟨document, hread, hdecode⟩ | ⟨p, a, hsource, hread, hload, hderived⟩
  all_goals
    have hcarried := hcarry _ hread
    rcases h' with ⟨document', hread', hdecode'⟩ | ⟨q, b, hsource', hread', hload', hderived'⟩
  · obtain rfl : document = document' := by simpa [hread'] using hcarried.symm
    rw [hdecode] at hdecode'
    exact .inl (congrArg Descriptor.name (Except.ok.inj hdecode'))
  · simp [hread'] at hcarried
  · simp [hread'] at hcarried
  · exact .inr ⟨p, q, a, b, hsource, hsource', hload, hload', hderived, hderived'⟩

theorem name_of_derived {storage : Storage} {a : Archive} {d : Descriptor}
    (hload : Archive.load storage p .jar = .ok a) (h : Automatic.descriptor a = .ok d) :
    (DerivedName.ofFileName? (p.fileName?.getD "")).map DerivedName.name = some d.name := by
  obtain ⟨derived, hderivable, hdescribes⟩ := Automatic.describes_of_descriptor h
  rw [← (Archive.of_load hload).1, hderivable.name, hdescribes.name]
  rfl

/-- Modules that lie at one place have one name, if one decoder reads their documents. -/
theorem name_eq_of_samePlace {decode : Decoder} (h : m.LiesIn v.storage) (h' : n.LiesIn v.storage)
    (hread : m.IsReadFrom ⟨v.storage, decode⟩) (hread' : n.IsReadFrom ⟨v.storage, decode⟩)
    (hplace : m.source.SamePlace n.source) : m.name = n.name := by
  obtain ⟨d, source⟩ := m
  obtain ⟨d', source'⟩ := n
  cases hplace with
  | image p q module =>
      have hname : module = d.name := h
      have hname' : module = d'.name := h'
      exact hname.symm.trans hname'
  | @exploded p q hsame =>
      have hp := Path.text_ne_empty_of_isAbsolute h
      have hq := Path.text_ne_empty_of_isAbsolute h'
      rcases hread.name_eq_or hread' fun content => Source.read_exploded_of_same hsame hp hq with
        hname | ⟨p', q', a, b, hsource, -⟩
      · exact hname
      · cases hsource
  | @packaged p q format format' hsame =>
      obtain rfl := Candidate.format_eq_of_classify hsame h.2 h'.2
      have hp := Candidate.endsWithName_of_classify h.2
      have hq := Candidate.endsWithName_of_classify h'.2
      rcases hread.name_eq_or hread' fun content => Source.read_packaged_of_same hsame hp hq with
        hname | ⟨p', q', a, b, hsource, hsource', hload, hload', hderived, hderived'⟩
      · exact hname
      · -- both names come from the name of the file
        cases hsource
        cases hsource'
        have hname := name_of_derived hload hderived
        rw [Path.fileName?_eq_of_same hsame, name_of_derived hload' hderived'] at hname
        exact (Option.some.inj hname).symm

end LocatedModule

end ModuleSearch
