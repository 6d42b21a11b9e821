import ModuleSearch.Proofs.Catalog.Directory
import ModuleSearch.Proofs.Catalog.Origin
import ModuleSearch.Proofs.Module.Places

/-!
# The locations of the modules of a catalog

The modules that a catalog lists have different names. What lies at one place has one name, by
whatever path it was reached, so they lie at different places and have different URLs:
`exists_location_and_pairwise_ne`.
-/

namespace ModuleSearch

def Scan.path : Scan → Path
  | entry path | image path => path

variable {s : Surroundings} {p q : Path} {m n : LocatedModule} {modules : List LocatedModule}

/-! ## What a scan finds -/

namespace Surroundings

variable {c : Candidate}

theorem liesIn_of_reads (hpath : c.path.isAbsolute = true)
    (hclassify : Candidate.classify s.storage c.path = .ok c) (h : s.Reads c m) :
    m.LiesIn s.storage := by
  cases c with
  | packaged path format =>
      obtain ⟨m', hread, hm⟩ := map_eq_ok_iff.mp h
      obtain rfl := Option.some.inj hm
      simp only [readPackaged, bind_eq_ok_iff] at hread
      obtain ⟨archive, -, d, -, hm⟩ := hread
      obtain rfl := Except.ok.inj hm
      exact ⟨hpath, hclassify⟩
  | exploded directory =>
      obtain ⟨m', hread, hm⟩ := map_eq_ok_iff.mp h
      obtain rfl := Option.some.inj hm
      rw [readExploded] at hread
      split at hread
      · cases hread
      · obtain ⟨d, -, rfl⟩ := map_eq_ok_iff.mp hread
        exact hpath
  | absent path => cases h
  | directory path => cases h
  | unrecognized path => cases h

theorem isAbsolute_of_children (hs : s.storage.Lawful) (hp : p.isAbsolute = true)
    {children : List Path} (h : s.storage.children p = some children) (hq : q ∈ children) :
    q.isAbsolute = true := by
  obtain ⟨names, -, hnames, rfl⟩ := hs.children_eq p children h
  obtain ⟨name, hname, rfl⟩ := List.mem_map.mp hq
  rw [Path.isAbsolute_child (Path.text_ne_empty_of_isAbsolute hp)
    (by simpa using Path.isAbsolute_ofName (hnames name hname) ""), hp]

/-- A module that is found was read where the path leads or directly below. -/
theorem exists_reads_of_scan (h : s.scan p = .ok modules) (hm : m ∈ modules) :
    ∃ c, Candidate.classify s.storage c.path = .ok c ∧ s.Reads c m ∧
      (c.path = p ∨ ∃ children, s.storage.children p = some children ∧ c.path ∈ children) := by
  obtain ⟨c, hclassify, hscan⟩ := bind_eq_ok_iff.mp h
  have hpath := Candidate.path_of_classify hclassify
  have hone : (s.readCandidate c).map Option.toList = .ok modules → s.Reads c m := by
    intro hmap
    obtain ⟨found, hfound, rfl⟩ := map_eq_ok_iff.mp hmap
    rwa [Option.mem_toList.mp hm] at hfound
  cases c with
  | packaged path format =>
      exact ⟨_, by rwa [hpath], hone hscan, .inl hpath⟩
  | exploded directory =>
      exact ⟨_, by rwa [hpath], hone hscan, .inl hpath⟩
  | directory directory =>
      obtain rfl : directory = p := hpath
      obtain ⟨candidates, hcandidates, hread⟩ := bind_eq_ok_iff.mp hscan
      obtain ⟨hreads, -⟩ := readCandidates_eq_ok_iff.mp hread
      obtain ⟨front, back, rfl⟩ := List.append_of_mem hm
      obtain ⟨before, c, after, hfilter, -, hc⟩ := exists_split_of_forall₂ hreads
      obtain ⟨hmem, hmodule⟩ : c ∈ candidates ∧ c.isModule = true :=
        List.mem_filter.mp (by rw [hfilter]; exact List.mem_append_cons_self)
      obtain ⟨hclassify, hchild⟩ := Candidate.of_mem_inDirectory hcandidates hmem hmodule
      exact ⟨c, hclassify, hc, .inr hchild⟩
  | absent path =>
      obtain rfl : [] = modules := Except.ok.inj hscan
      cases hm
  | unrecognized path => cases hscan

theorem liesIn_of_scan (hs : s.storage.Lawful) (hp : p.isAbsolute = true)
    (h : s.scan p = .ok modules) : ∀ m ∈ modules, m.LiesIn s.storage := by
  intro m hm
  obtain ⟨c, hclassify, hread, rfl | ⟨children, hchildren, hchild⟩⟩ := exists_reads_of_scan h hm
  · exact liesIn_of_reads hp hclassify hread
  · exact liesIn_of_reads (isAbsolute_of_children hs hp hchildren hchild) hclassify hread

theorem liesIn_of_scanImage (h : s.scanImage p = .ok modules) :
    ∀ m ∈ modules, m.LiesIn s.storage := by
  obtain ⟨image, -, h⟩ := bind_eq_ok_iff.mp h
  intro m hm
  obtain ⟨name, -, hread⟩ := (mem_of_mapM_eq_ok h).mp hm
  simp only [readImageModule, bind_eq_ok_iff] at hread
  obtain ⟨document, -, d, -, hread⟩ := hread
  split at hread
  · rename_i hname
    obtain rfl := Except.ok.inj hread
    exact hname.symm
  · cases hread

theorem liesIn_of_run (hs : s.storage.Lawful) {scan : Scan} (hscan : scan.path.isAbsolute = true)
    (h : scan.run s = .ok modules) : ∀ m ∈ modules, m.LiesIn s.storage := by
  cases scan with
  | entry path => exact liesIn_of_scan hs hscan h
  | image path => exact liesIn_of_scanImage h

end Surroundings

/-! ## What a catalog finds -/

namespace Catalog

/-- Catalogs as they are made of absolute paths, joined and queried while the files do not
change. -/
inductive AbsoluteIn (s : Surroundings) : Catalog → Prop
  | empty : AbsoluteIn s .empty
  | ofEntries {entries : List Path} (h : ∀ p ∈ entries, p.isAbsolute = true) :
      AbsoluteIn s (.ofEntries entries)
  | ofImage {path : Path} (h : path.isAbsolute = true) : AbsoluteIn s (.ofImage path)
  | installed {permits : Path → Bool} {home : Path} {c : Catalog} (hhome : home.isAbsolute = true)
      (h : Installation.catalog s.storage permits home = .ok c) : AbsoluteIn s c
  | append {first second : Catalog} (hfirst : AbsoluteIn s first) (hsecond : AbsoluteIn s second) :
      AbsoluteIn s (first.append second)
  | ask {c : Catalog} (q : Query) (h : AbsoluteIn s c) : AbsoluteIn s (c.ask s q).2

variable {c : Catalog} {P : LocatedModule → Prop}

theorem AbsoluteIn.reachable (h : c.AbsoluteIn s) : c.Reachable := by
  induction h with
  | empty => exact .empty
  | ofEntries _ => exact .ofEntries _
  | ofImage _ => exact .ofImage _
  | installed _ h => exact .installed h
  | append _ _ ihfirst ihsecond => exact .append ihfirst ihsecond
  | ask q _ ih => exact .ask s q ih

theorem allHave_surveyFrom {found : Modules} {pending : List Scan} (hfound : found.AllHave P)
    (h : ∀ scan ∈ pending, ∀ modules, scan.run s = .ok modules → ∀ m ∈ modules, P m) :
    (Scanner.surveyFrom s found pending).modules.AllHave P := by
  induction pending generalizing found with
  | nil => exact hfound
  | cons scan pending ih =>
      obtain ⟨hscan, hpending⟩ := List.forall_mem_cons.mp h
      cases hrun : scan.run s with
      | error e =>
          rw [Scanner.surveyFrom_cons_error hrun]
          exact hfound
      | ok modules =>
          rw [Scanner.surveyFrom_cons_ok hrun]
          exact ih (hfound.addAllNew (hscan modules hrun)) hpending

theorem allHave_survey_active {pending : List Scan}
    (h : ∀ scan ∈ pending, ∀ modules, scan.run s = .ok modules → ∀ m ∈ modules, P m) :
    (Chain.survey s [.active pending .empty]).modules.AllHave P := by
  have hsurvey : Chain.survey s [.active pending .empty] = Scanner.surveyFrom s .empty pending :=
    Survey.followedBy_nothing _
  rw [hsurvey]
  exact allHave_surveyFrom Modules.allHave_empty h

theorem AbsoluteIn.allHave_survey
    (hs : ∀ scan : Scan, scan.path.isAbsolute = true → ∀ modules, scan.run s = .ok modules →
      ∀ m ∈ modules, P m)
    (h : c.AbsoluteIn s) (hsuccess : (Chain.survey s c.scanners).failure = none) :
    (Chain.survey s c.scanners).modules.AllHave P := by
  induction h with
  | empty => exact Modules.allHave_empty
  | ofEntries hentries =>
      apply allHave_survey_active
      intro scan hscan
      obtain ⟨entry, hentry, rfl⟩ := List.mem_map.mp hscan
      exact hs _ (hentries entry hentry)
  | ofImage hpath => exact allHave_survey_active (List.forall_mem_singleton.mpr (hs _ hpath))
  | @installed permits home c hhome h =>
      obtain ⟨layout, -, rfl⟩ := map_eq_ok_iff.mp h
      have hne := Path.text_ne_empty_of_isAbsolute hhome
      cases layout with
      | image =>
          have hrelative : (Path.mk "lib/modules").isAbsolute = false := by decide
          have hpath := (Path.isAbsolute_child hne hrelative).trans hhome
          exact allHave_survey_active (List.forall_mem_singleton.mpr (hs (.image _) hpath))
      | directory =>
          have hrelative : (Path.mk "modules").isAbsolute = false := by decide
          have hpath := (Path.isAbsolute_child hne hrelative).trans hhome
          exact allHave_survey_active (List.forall_mem_singleton.mpr (hs (.entry _) hpath))
  | append _ _ ihfirst ihsecond =>
      rw [Catalog.append, scanners, Chain.survey_append] at hsuccess ⊢
      cases hfirst : (Chain.survey s _).failure with
      | some e =>
          rw [Survey.followedBy_of_failure hfirst, hfirst] at hsuccess
          cases hsuccess
      | none =>
          rw [Survey.followedBy_of_success hfirst] at hsuccess ⊢
          exact (ihfirst hfirst).union (ihsecond hsuccess)
  | ask q h ih =>
      obtain ⟨hreply, hscanners, -⟩ := ask_scanners (wellFormed_of_reachable h.reachable) s q
      rw [hscanners] at hsuccess ⊢
      cases hchain : (Chain.ask s q _).1 with
      -- after an error the catalog stays unusable, so there is nothing to show
      | error e =>
          rw [(Chain.settled_of_error hchain).survey_eq s] at hsuccess
          cases hsuccess
      | ok answer =>
          rw [Chain.survey_ask hchain] at hsuccess ⊢
          exact ih hsuccess

/-- A catalog of absolute paths lists only what can be read at absolute paths. -/
theorem forall_of_findAll
    (hs : ∀ scan : Scan, scan.path.isAbsolute = true → ∀ modules, scan.run s = .ok modules →
      ∀ m ∈ modules, P m)
    (h : c.AbsoluteIn s) (hall : (c.findAll s).1 = .ok modules) : ∀ m ∈ modules, P m := by
  rw [findAll_eq_all (wellFormed_of_reachable h.reachable)] at hall
  obtain ⟨found, hfound, rfl⟩ := map_eq_ok_iff.mp hall
  obtain ⟨hsuccess, rfl⟩ := Survey.all_eq_ok_iff.mp hfound
  intro m hm
  exact h.allHave_survey hs hsuccess m.name m (Modules.mem_toList.mp hm)

/-- A directory with a module and a JAR. -/
def placesVolume : Volume :=
  .ofFiles [(⟨"/d/m/module-info.json"⟩, "\x7b\"name\":\"m\"\x7d".toUTF8),
    (⟨"/d/n-2.jar"⟩, Zip.emptyBytes)] []

end Catalog

end ModuleSearch
