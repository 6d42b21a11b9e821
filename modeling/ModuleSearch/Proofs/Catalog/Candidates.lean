import Mathlib.Data.List.Forall2
import ModuleSearch.Catalog.Scan
import ModuleSearch.Proofs.Except

/-!
# The modules of a directory

A directory gives the modules of its candidates in order, unless two of them have one name:
`readCandidates_eq_ok_iff`. Then the error names the first module that repeats a name, and the one
that has it already: `readCandidates_eq_duplicate`.
-/

namespace ModuleSearch

namespace Candidate

/-- Whether a module is expected at the candidate. -/
def isModule : Candidate → Bool
  | packaged _ _ | exploded _ => true
  | absent _ | directory _ | unrecognized _ => false

/-- The paths at which modules are expected. -/
def modulePaths (candidates : List Candidate) : List Path :=
  (candidates.filter isModule).map path

variable {storage : Storage} {p : Path} {c : Candidate} {candidates : List Candidate}

theorem path_of_classifyFile (h : classifyFile storage p = .ok c) : c.path = p := by
  rw [classifyFile] at h
  split at h
  · cases h
  · split at h <;> obtain rfl := Except.ok.inj h <;> rfl

theorem path_of_classify (h : classify storage p = .ok c) : c.path = p := by
  rw [classify] at h
  split at h
  · obtain rfl := Except.ok.inj h
    rfl
  · split at h
    · split at h <;> obtain rfl := Except.ok.inj h <;> rfl
    · exact path_of_classifyFile h

theorem eq_of_nested (h : c.nested.isModule = true) : c.nested = c := by
  cases c with
  | directory path => cases h
  | _ => rfl

/-- A module in a directory is a child that is taken for a module by itself. -/
theorem of_mem_inDirectory (h : inDirectory storage p = .ok candidates) (hc : c ∈ candidates)
    (hmodule : c.isModule = true) :
    classify storage c.path = .ok c ∧
      ∃ children, storage.children p = some children ∧ c.path ∈ children := by
  rw [inDirectory] at h
  split at h
  · cases h
  · rename_i children hchildren
    obtain ⟨child, hchild, hnested⟩ := (mem_of_mapM_eq_ok h).mp hc
    obtain ⟨found, hfound, rfl⟩ := map_eq_ok_iff.mp hnested
    rw [eq_of_nested hmodule, path_of_classify hfound]
    exact ⟨hfound, children, hchildren, List.mem_of_mem_filter hchild⟩

end Candidate

namespace Surroundings

open Candidate (isModule)

variable {s s' : Surroundings} {directory first : Path} {c : Candidate}
  {candidates front : List Candidate} {before : List (String × Path)} {m : LocatedModule}
  {modules : List LocatedModule}

theorem readCandidate_of_not_isModule (h : c.isModule = false) : s.readCandidate c = .ok none := by
  cases c with
  | packaged path format => cases h
  | exploded directory => cases h
  | _ => rfl

theorem isModule_of_readCandidate (h : s.readCandidate c = .ok (some m)) : c.isModule = true := by
  rw [← Bool.not_eq_false]
  intro hnot
  rw [readCandidate_of_not_isModule hnot] at h
  cases h

theorem exists_readCandidate_iff (h : c.isModule = true) {found : Option LocatedModule} :
    s.readCandidate c = .ok found ↔ ∃ m, found = some m ∧ s.readCandidate c = .ok (some m) := by
  refine ⟨fun hfound => ?_, fun ⟨m, hm, hread⟩ => hm ▸ hread⟩
  cases found with
  | some m => exact ⟨m, rfl, hfound⟩
  | none =>
      cases c with
      | packaged path format =>
          obtain ⟨m, -, hm⟩ := map_eq_ok_iff.mp hfound
          cases hm
      | exploded directory =>
          obtain ⟨m, -, hm⟩ := map_eq_ok_iff.mp hfound
          cases hm
      | _ => cases h

theorem scan_of_isModule (hc : Candidate.classify s.storage c.path = .ok c)
    (h : c.isModule = true) : s.scan c.path = (s.readCandidate c).map Option.toList := by
  rw [scan, hc]
  cases c with
  | packaged path format => rfl
  | exploded directory => rfl
  | _ => cases h

theorem scan_of_directory (hclassify : Candidate.classify s.storage directory =
      .ok (.directory directory))
    (hcandidates : Candidate.inDirectory s.storage directory = .ok candidates) :
    s.scan directory = s.readCandidates directory [] candidates := by
  rw [scan, hclassify]
  change s.scanDirectory directory = _
  rw [scanDirectory, hcandidates]
  rfl

/-- What is no module does not count. -/
theorem readCandidates_filter (before : List (String × Path)) (candidates : List Candidate) :
    s.readCandidates directory before (candidates.filter isModule) =
      s.readCandidates directory before candidates := by
  induction candidates generalizing before with
  | nil => rfl
  | cons c rest ih =>
      cases hc : c.isModule with
      | false =>
          rw [List.filter_cons_of_neg (by simp [hc]), ih, readCandidates,
            readCandidate_of_not_isModule hc]
          rfl
      | true =>
          rw [List.filter_cons_of_pos hc, readCandidates, readCandidates]
          congr 1
          funext found
          cases found with
          | none => exact ih before
          | some m =>
              dsimp only
              split
              · rfl
              · rw [ih]

theorem readCandidates_congr (h : ∀ c ∈ candidates, s.readCandidate c = s'.readCandidate c)
    (before : List (String × Path)) :
    s.readCandidates directory before candidates =
      s'.readCandidates directory before candidates := by
  induction candidates generalizing before with
  | nil => rfl
  | cons c rest ih =>
      obtain ⟨hc, hrest⟩ := List.forall_mem_cons.mp h
      simp only [readCandidates, hc, ih hrest]

/-- What is read where a module is expected. -/
def Reads (s : Surroundings) (c : Candidate) (m : LocatedModule) : Prop :=
  s.readCandidate c = .ok (some m)

theorem readCandidates_cons (hm : s.Reads c m) (rest : List Candidate) :
    s.readCandidates directory before (c :: rest) =
      match before.lookup m.name with
      | some first => .error (.duplicateModule m.name directory first c.path)
      | none => (s.readCandidates directory ((m.name, c.path) :: before) rest).map (m :: ·) := by
  rw [readCandidates, show s.readCandidate c = .ok (some m) from hm]
  change (match before.lookup m.name with | some _ => _ | none => _) = _
  split
  · rfl
  · cases s.readCandidates directory ((m.name, c.path) :: before) rest <;> rfl

theorem lookup_cons_eq_none_iff {name other : String} {p : Path} :
    List.lookup name ((other, p) :: before) = none ↔ name ≠ other ∧ before.lookup name = none := by
  rw [List.lookup_cons]
  by_cases h : name = other
  · simp [h]
  · rw [beq_false_of_ne h]
    exact (and_iff_right h).symm

/-- A directory gives the modules of its candidates if no two of them have one name. -/
theorem readCandidates_eq_ok_iff :
    s.readCandidates directory before candidates = .ok modules ↔
      List.Forall₂ s.Reads (candidates.filter isModule) modules ∧
        modules.Pairwise (fun m n => m.name ≠ n.name) ∧
          ∀ m ∈ modules, before.lookup m.name = none := by
  rw [← readCandidates_filter]
  have hmodules : ∀ c ∈ candidates.filter isModule, c.isModule = true :=
    fun c hc => List.of_mem_filter hc
  generalize candidates.filter isModule = candidates at hmodules ⊢
  induction candidates generalizing before modules with
  | nil =>
      rw [readCandidates, List.forall₂_nil_left_iff, Except.ok.injEq]
      constructor
      · rintro rfl
        exact ⟨rfl, .nil, by simp⟩
      · rintro ⟨rfl, -⟩
        rfl
  | cons c rest ih =>
      obtain ⟨hc, hrest⟩ := List.forall_mem_cons.mp hmodules
      rw [List.forall₂_cons_left_iff]
      constructor
      · intro h
        obtain ⟨found, hfound, -⟩ := bind_eq_ok_iff.mp h
        obtain ⟨m, rfl, hm⟩ := (exists_readCandidate_iff hc).mp hfound
        rw [readCandidates_cons hm] at h
        split at h
        · cases h
        · rename_i hmissing
          obtain ⟨others, hothers, rfl⟩ := map_eq_ok_iff.mp h
          obtain ⟨hreads, hnames, hbefore⟩ := (ih hrest).mp hothers
          have hnew := fun n hn => lookup_cons_eq_none_iff.mp (hbefore n hn)
          refine ⟨⟨m, others, hm, hreads, rfl⟩, ?_, ?_⟩
          · exact List.pairwise_cons.mpr ⟨fun n hn => (hnew n hn).1.symm, hnames⟩
          · exact List.forall_mem_cons.mpr ⟨hmissing, fun n hn => (hnew n hn).2⟩
      · rintro ⟨⟨m, others, hm, hreads, rfl⟩, hnames, hbefore⟩
        obtain ⟨hne, hnames⟩ := List.pairwise_cons.mp hnames
        obtain ⟨hmissing, hbefore⟩ := List.forall_mem_cons.mp hbefore
        have hmissing' : ∀ n ∈ others, List.lookup n.name ((m.name, c.path) :: before) = none :=
          fun n hn => lookup_cons_eq_none_iff.mpr ⟨(hne n hn).symm, hbefore n hn⟩
        rw [readCandidates_cons hm, hmissing]
        exact congrArg (Except.map (m :: ·)) ((ih hrest).mpr ⟨hreads, hnames, hmissing'⟩)

/-- The first module whose name is taken is an error, which names who has it. -/
theorem readCandidates_eq_duplicate {back : List Candidate}
    (hreads : List.Forall₂ s.Reads front modules)
    (hnames : modules.Pairwise fun m n => m.name ≠ n.name)
    (hbefore : ∀ n ∈ modules, before.lookup n.name = none) (hm : s.Reads c m)
    (hfirst : before.lookup m.name = some first ∨
      ∃ d ∈ front, d.path = first ∧ ∃ n, s.Reads d n ∧ n.name = m.name) :
    s.readCandidates directory before (front ++ c :: back) =
      .error (.duplicateModule m.name directory first c.path) := by
  induction hreads generalizing before with
  | nil =>
      obtain hfirst | ⟨d, hd, -⟩ := hfirst
      · rw [List.nil_append, readCandidates_cons hm, hfirst]
      · cases hd
  | @cons d n front others hd _ ih =>
      obtain ⟨hne, hnames⟩ := List.pairwise_cons.mp hnames
      obtain ⟨hmissing, hbefore⟩ := List.forall_mem_cons.mp hbefore
      have hmissing' : ∀ k ∈ others, List.lookup k.name ((n.name, d.path) :: before) = none :=
        fun k hk => lookup_cons_eq_none_iff.mpr ⟨(hne k hk).symm, hbefore k hk⟩
      have hfirst' : List.lookup m.name ((n.name, d.path) :: before) = some first ∨
          ∃ d ∈ front, d.path = first ∧ ∃ n, s.Reads d n ∧ n.name = m.name := by
        rw [List.lookup_cons]
        obtain hfirst | ⟨d', hd', hpath, n', hn', hname⟩ := hfirst
        · have hother : m.name ≠ n.name := by
            intro heq
            rw [heq, hmissing] at hfirst
            cases hfirst
          exact .inl (by rw [beq_false_of_ne hother]; exact hfirst)
        · rcases List.mem_cons.mp hd' with rfl | hd'
          · obtain rfl : n' = n := Option.some.inj (Except.ok.inj (hn'.symm.trans hd))
            exact .inl (by rw [hname, beq_self_eq_true]; exact congrArg some hpath)
          · exact .inr ⟨d', hd', hpath, n', hn', hname⟩
      rw [List.cons_append, readCandidates_cons hd, hmissing]
      exact congrArg (Except.map (n :: ·)) (ih hnames hmissing' hfirst')

end Surroundings

end ModuleSearch
