import Mathlib.Data.List.Dedup
import Mathlib.Data.List.Induction
import ModuleSearch.Proofs.Catalog.Candidates
import ModuleSearch.Proofs.Catalog.Entries

/-!
# Directories of modules

A directory of modules gives what its modules give as entries of a module path one after the other,
unless a name occurs twice among them. Such a name is an error, whereas on a module path the first
module of the name would count: `findAll_directory`.
-/

namespace ModuleSearch

open Candidate (isModule modulePaths)

theorem exists_first_of_not_pairwise {α : Type} {R : α → α → Prop} {l : List α}
    (h : ¬ l.Pairwise R) :
    ∃ front a back, l = front ++ a :: back ∧ front.Pairwise R ∧ ∃ b ∈ front, ¬ R b a := by
  induction l using List.reverseRecOn with
  | nil => exact absurd .nil h
  | append_singleton l a ih =>
      by_cases hl : l.Pairwise R
      · refine ⟨l, a, [], rfl, hl, ?_⟩
        by_contra hnone
        push Not at hnone
        exact h (List.pairwise_append.mpr ⟨hl, List.pairwise_singleton R a, by simpa using hnone⟩)
      · obtain ⟨front, b, back, rfl, hfront, hb⟩ := ih hl
        exact ⟨front, b, back ++ [a], by simp, hfront, hb⟩

theorem exists_split_of_forall₂ {α β : Type} {R : α → β → Prop} {xs : List α} {front back : List β}
    {b : β} (h : List.Forall₂ R xs (front ++ b :: back)) :
    ∃ before a after, xs = before ++ a :: after ∧ List.Forall₂ R before front ∧ R a b := by
  obtain ⟨a, after, hab, -, hdrop⟩ :=
    List.forall₂_cons_right_iff.mp (List.forall₂_drop_append _ _ _ h)
  refine ⟨xs.take front.length, a, after, ?_, List.forall₂_take_append _ _ _ h, hab⟩
  rw [← hdrop, List.take_append_drop]

namespace Modules

variable {modules : List LocatedModule}

theorem length_toList_addAllNew (modules : List LocatedModule) :
    (empty.addAllNew modules).toList.length = (modules.map LocatedModule.name).dedup.length := by
  have hnodup : ((empty.addAllNew modules).toList.map LocatedModule.name).Nodup := by
    refine List.pairwise_map.mpr ((toList_ascending _).imp ?_)
    intro m n hlt heq
    exact String.lt_irrefl _ (heq ▸ hlt)
  have hmem : ∀ name, name ∈ (empty.addAllNew modules).toList.map LocatedModule.name ↔
      name ∈ (modules.map LocatedModule.name).dedup := by
    intro name
    rw [List.mem_dedup]
    constructor
    · intro h
      obtain ⟨m, hm, rfl⟩ := List.mem_map.mp h
      have hget := mem_toList.mp hm
      rw [get?_addAllNew, get?_empty, Option.none_or] at hget
      exact List.mem_map_of_mem (List.mem_of_find?_eq_some hget)
    · intro h
      obtain ⟨m, hm, rfl⟩ := List.mem_map.mp h
      obtain ⟨n, hn⟩ := Option.isSome_iff_exists.mp (isSome_get?_addAllNew empty hm)
      have hname := name_of_get? hn
      exact List.mem_map.mpr ⟨n, mem_toList.mpr (hname ▸ hn), hname⟩
  rw [← List.length_map LocatedModule.name]
  exact ((List.perm_ext_iff_of_nodup hnodup (List.nodup_dedup _)).mpr hmem).length_eq

/-- All modules are kept exactly if no two of them have one name. -/
theorem length_toList_eq_iff :
    (empty.addAllNew modules).toList.length = modules.length ↔
      modules.Pairwise fun m n => m.name ≠ n.name := by
  rw [length_toList_addAllNew, ← List.length_map LocatedModule.name, ← List.pairwise_map]
  change _ ↔ (modules.map LocatedModule.name).Nodup
  rw [← List.dedup_eq_self]
  exact ⟨(List.dedup_sublist _).eq_of_length, congrArg List.length⟩

end Modules

namespace Surroundings

variable {s : Surroundings} {directory : Path} {c : Candidate} {candidates : List Candidate}
  {m : LocatedModule} {modules : List LocatedModule}

/-- The name of the module at an entry, if it holds just one. -/
def nameAt? (s : Surroundings) (entry : Path) : Option String :=
  match s.scan entry with
  | .ok [m] => some m.name
  | _ => none

/-- The module at the second path is the first one that has the name of a module before it, namely
of that at the first path. -/
def FirstRepeat (s : Surroundings) (paths : List Path) (name : String) (first second : Path) :
    Prop :=
  ∃ before after, paths = before ++ second :: after ∧ (before.map s.nameAt?).Nodup ∧
    first ∈ before ∧ s.nameAt? first = some name ∧ s.nameAt? second = some name

theorem scan_of_reads (hc : Candidate.classify s.storage c.path = .ok c) (h : s.Reads c m) :
    s.scan c.path = .ok [m] := by
  rw [scan_of_isModule hc (isModule_of_readCandidate h), show s.readCandidate c = _ from h]
  rfl

theorem nameAt?_of_reads (hc : Candidate.classify s.storage c.path = .ok c) (h : s.Reads c m) :
    s.nameAt? c.path = some m.name := by
  rw [nameAt?, scan_of_reads hc h]

theorem map_nameAt? (hc : ∀ c ∈ candidates, Candidate.classify s.storage c.path = .ok c)
    (h : List.Forall₂ s.Reads candidates modules) :
    (candidates.map Candidate.path).map s.nameAt? = modules.map fun m => some m.name := by
  induction h with
  | nil => rfl
  | cons hm _ ih =>
      obtain ⟨hc, hrest⟩ := List.forall_mem_cons.mp hc
      simp only [List.map_cons, nameAt?_of_reads hc hm, ih hrest]

/-- Modules that can be read one by one but repeat a name are an error of their directory. -/
theorem exists_firstRepeat (directory : Path)
    (hc : ∀ c ∈ candidates, Candidate.classify s.storage c.path = .ok c)
    (hreads : List.Forall₂ s.Reads candidates modules)
    (hrepeat : ¬ modules.Pairwise fun m n => m.name ≠ n.name) :
    ∃ name first second, s.FirstRepeat (candidates.map Candidate.path) name first second ∧
      s.readCandidates directory [] candidates =
        .error (.duplicateModule name directory first second) := by
  obtain ⟨front, m, back, rfl, hnames, n, hn, heq⟩ := exists_first_of_not_pairwise hrepeat
  have heq : n.name = m.name := not_not.mp heq
  obtain ⟨before, c, after, rfl, hfront, hm⟩ := exists_split_of_forall₂ hreads
  obtain ⟨hbefore, hrest⟩ := List.forall_mem_append.mp hc
  -- the module that has the name already, and where it lies
  obtain ⟨frontOf, backOf, rfl⟩ := List.append_of_mem hn
  obtain ⟨_, d, _, rfl, -, hd⟩ := exists_split_of_forall₂ hfront
  have hkeys := map_nameAt? hbefore hfront
  refine ⟨m.name, d.path, c.path, ⟨_, after.map Candidate.path, List.map_append, ?_, ?_, ?_, ?_⟩,
    readCandidates_eq_duplicate hfront hnames (by simp) hm (.inr ⟨d, by simp, rfl, n, hd, heq⟩)⟩
  · rw [hkeys]
    exact List.pairwise_map.mpr (hnames.imp fun hne hsome => hne (Option.some.inj hsome))
  · simp
  · rw [nameAt?_of_reads (hbefore d (by simp)) hd, heq]
  · exact nameAt?_of_reads (hrest c (by simp)) hm

end Surroundings

namespace Scanner

variable {s : Surroundings} {candidates : List Candidate} {found found' : Modules}

theorem surveyFrom_eq_success_iff
    (hc : ∀ c ∈ candidates, Candidate.classify s.storage c.path = .ok c)
    (hmodule : ∀ c ∈ candidates, c.isModule = true) :
    surveyFrom s found ((candidates.map Candidate.path).map .entry) = ⟨found', none⟩ ↔
      ∃ modules, List.Forall₂ s.Reads candidates modules ∧ found.addAllNew modules = found' := by
  induction candidates generalizing found with
  | nil =>
      simp only [List.forall₂_nil_left_iff, exists_eq_left]
      exact ⟨congrArg Survey.modules, congrArg (Survey.mk · none)⟩
  | cons c rest ih =>
      obtain ⟨hc, hrest⟩ := List.forall_mem_cons.mp hc
      obtain ⟨hm, hmodule⟩ := List.forall_mem_cons.mp hmodule
      simp only [List.map_cons, List.forall₂_cons_left_iff]
      cases hread : s.readCandidate c with
      | error e =>
          have hrun : (Scan.entry c.path).run s = .error e := by
            rw [Scan.run, Surroundings.scan_of_isModule hc hm, hread]
            rfl
          rw [surveyFrom_cons_error hrun]
          constructor
          · intro h
            cases congrArg Survey.failure h
          · rintro ⟨-, ⟨m, _, hreads, -⟩, -⟩
            cases hread.symm.trans hreads
      | ok read =>
          obtain ⟨m, rfl, hreads⟩ := (Surroundings.exists_readCandidate_iff hm).mp hread
          have hrun : (Scan.entry c.path).run s = .ok [m] := Surroundings.scan_of_reads hc hreads
          rw [surveyFrom_cons_ok hrun, ih hrest hmodule]
          constructor
          · rintro ⟨modules, hall, rfl⟩
            exact ⟨m :: modules, ⟨m, modules, hreads, hall, rfl⟩, rfl⟩
          · rintro ⟨-, ⟨n, modules, hn, hall, rfl⟩, rfl⟩
            obtain rfl : m = n := Option.some.inj (Except.ok.inj (hreads.symm.trans hn))
            exact ⟨modules, hall, rfl⟩

end Scanner

namespace Catalog

variable {s : Surroundings} {directory : Path} {candidates : List Candidate}
  {modules listing : List LocatedModule}

theorem classify_of_mem_filter
    (hcandidates : Candidate.inDirectory s.storage directory = .ok candidates) :
    ∀ c ∈ candidates.filter isModule, Candidate.classify s.storage c.path = .ok c := by
  intro c hc
  obtain ⟨hmem, hmodule⟩ := List.mem_filter.mp hc
  exact (Candidate.of_mem_inDirectory hcandidates hmem hmodule).1

theorem findAll_modulePaths
    (hcandidates : Candidate.inDirectory s.storage directory = .ok candidates) :
    ((ofEntries (modulePaths candidates)).findAll s).1 = .ok listing ↔
      ∃ modules, List.Forall₂ s.Reads (candidates.filter isModule) modules ∧
        (Modules.addAllNew .empty modules).toList = listing := by
  have hsuccess : ∀ found, (surveyOf s (modulePaths candidates)).all = .ok found ↔
      surveyOf s (modulePaths candidates) = ⟨found, none⟩ := by
    intro found
    rw [Survey.all_eq_ok_iff, and_comm]
    rcases surveyOf s (modulePaths candidates) with ⟨known, failure⟩
    exact (Survey.mk.injEq ..).symm.to_iff
  rw [findAll_ofEntries, map_eq_ok_iff]
  simp only [hsuccess]
  have hmodules : ∀ c ∈ candidates.filter isModule, c.isModule = true :=
    fun c hc => List.of_mem_filter hc
  have hclassify := classify_of_mem_filter hcandidates
  constructor
  · rintro ⟨found, hfound, rfl⟩
    obtain ⟨modules, hreads, rfl⟩ :=
      (Scanner.surveyFrom_eq_success_iff hclassify hmodules).mp hfound
    exact ⟨modules, hreads, rfl⟩
  · rintro ⟨modules, hreads, rfl⟩
    exact ⟨_, (Scanner.surveyFrom_eq_success_iff hclassify hmodules).mpr ⟨modules, hreads, rfl⟩,
      rfl⟩

theorem findAll_ofDirectory
    (hclassify : Candidate.classify s.storage directory = .ok (.directory directory))
    (hcandidates : Candidate.inDirectory s.storage directory = .ok candidates) :
    ((ofEntries [directory]).findAll s).1 = (s.readCandidates directory [] candidates).map
      fun modules => (Modules.addAllNew .empty modules).toList := by
  rw [findAll_ofEntries, surveyOf, List.map_singleton, Scanner.surveyFrom, Scan.run,
    Surroundings.scan_of_directory hclassify hcandidates]
  cases s.readCandidates directory [] candidates <;> rfl

theorem length_modulePaths
    (hreads : List.Forall₂ s.Reads (candidates.filter isModule) modules) :
    (modulePaths candidates).length = modules.length := by
  rw [modulePaths, List.length_map, hreads.length_eq]

/-- A directory can be listed if its modules, one by one, can be and keep their number. If some are
lost, the error of the directory names the first module that repeats a name. -/
theorem findAll_directory
    (hclassify : Candidate.classify s.storage directory = .ok (.directory directory))
    (hcandidates : Candidate.inDirectory s.storage directory = .ok candidates) :
    (∀ listing, ((ofEntries [directory]).findAll s).1 = .ok listing ↔
      ((ofEntries (modulePaths candidates)).findAll s).1 = .ok listing ∧
        listing.length = (modulePaths candidates).length) ∧
    ∀ listing, ((ofEntries (modulePaths candidates)).findAll s).1 = .ok listing →
      listing.length < (modulePaths candidates).length →
        ∃ name first second, s.FirstRepeat (modulePaths candidates) name first second ∧
          ((ofEntries [directory]).findAll s).1 =
            .error (.duplicateModule name directory first second) := by
  rw [findAll_ofDirectory hclassify hcandidates]
  simp only [findAll_modulePaths hcandidates]
  refine ⟨fun listing => ?_, ?_⟩
  · rw [map_eq_ok_iff]
    simp only [Surroundings.readCandidates_eq_ok_iff]
    constructor
    · rintro ⟨modules, ⟨hreads, hnames, -⟩, rfl⟩
      refine ⟨⟨modules, hreads, rfl⟩, ?_⟩
      rw [length_modulePaths hreads]
      exact Modules.length_toList_eq_iff.mpr hnames
    · rintro ⟨⟨modules, hreads, rfl⟩, hlength⟩
      rw [length_modulePaths hreads] at hlength
      exact ⟨modules, ⟨hreads, Modules.length_toList_eq_iff.mp hlength, by simp⟩, rfl⟩
  · rintro - ⟨modules, hreads, rfl⟩ hlength
    rw [length_modulePaths hreads] at hlength
    have hrepeat := mt Modules.length_toList_eq_iff.mpr (Nat.ne_of_lt hlength)
    obtain ⟨name, first, second, hfirst, herror⟩ := Surroundings.exists_firstRepeat
      directory (classify_of_mem_filter hcandidates) hreads hrepeat
    rw [Surroundings.readCandidates_filter] at herror
    exact ⟨name, first, second, hfirst, by rw [herror]; rfl⟩

/-- Two directories of modules. In `/d` two modules have one name. -/
def directoriesSample : Surroundings :=
  .ofList [("/d", .directory (some [".h", "a", "b", "c"])), ("/d/.h", .file none),
    ("/d/a", .directory (some ["module-info.json"])),
    ("/d/a/module-info.json", .file (some "\x7b\"name\":\"m\"\x7d".toUTF8)),
    ("/d/b", .file (some "text".toUTF8)), ("/d/c", .directory (some ["module-info.json"])),
    ("/d/c/module-info.json", .file (some "\x7b\"name\":\"m\"\x7d".toUTF8)),
    ("/e", .directory (some ["a"])), ("/e/a", .directory (some ["module-info.json"])),
    ("/e/a/module-info.json", .file (some "\x7b\"name\":\"m\"\x7d".toUTF8))]

theorem findAll_directory_sample :
    let s := directoriesSample
    let repeated : List Candidate :=
      [.exploded ⟨"/d/a"⟩, .unrecognized ⟨"/d/b"⟩, .exploded ⟨"/d/c"⟩]
    Candidate.classify s.storage ⟨"/d"⟩ = .ok (.directory ⟨"/d"⟩) ∧
      Candidate.inDirectory s.storage ⟨"/d"⟩ = .ok repeated ∧
      ((ofEntries (modulePaths repeated)).findAll s).1 =
        .ok [⟨LocatedModule.sample.descriptor, .exploded ⟨"/d/a"⟩⟩] ∧
      (∃ name first second, s.FirstRepeat (modulePaths repeated) name first second ∧
        ((ofEntries [⟨"/d"⟩]).findAll s).1 =
          .error (.duplicateModule name ⟨"/d"⟩ first second)) ∧
      Candidate.classify s.storage ⟨"/e"⟩ = .ok (.directory ⟨"/e"⟩) ∧
      Candidate.inDirectory s.storage ⟨"/e"⟩ = .ok [.exploded ⟨"/e/a"⟩] ∧
      ((ofEntries [⟨"/e"⟩]).findAll s).1 =
        .ok [⟨LocatedModule.sample.descriptor, .exploded ⟨"/e/a"⟩⟩] := by
  intro s repeated
  have hd : Candidate.classify s.storage ⟨"/d"⟩ = .ok (.directory ⟨"/d"⟩) := by decide +kernel
  have hrepeated : Candidate.inDirectory s.storage ⟨"/d"⟩ = .ok repeated := by decide +kernel
  have hone : ((ofEntries (modulePaths repeated)).findAll s).1 =
      .ok [⟨LocatedModule.sample.descriptor, .exploded ⟨"/d/a"⟩⟩] := by
    decide +kernel
  have he : Candidate.classify s.storage ⟨"/e"⟩ = .ok (.directory ⟨"/e"⟩) := by decide +kernel
  have hcandidates : Candidate.inDirectory s.storage ⟨"/e"⟩ = .ok [.exploded ⟨"/e/a"⟩] := by
    decide +kernel
  have hlisting : ((ofEntries (modulePaths [.exploded ⟨"/e/a"⟩])).findAll s).1 =
      .ok [⟨LocatedModule.sample.descriptor, .exploded ⟨"/e/a"⟩⟩] := by
    decide +kernel
  exact ⟨hd, hrepeated, hone, (findAll_directory hd hrepeated).2 _ hone (by decide), he,
    hcandidates, ((findAll_directory he hcandidates).1 _).mpr ⟨hlisting, rfl⟩⟩

end Catalog

end ModuleSearch
