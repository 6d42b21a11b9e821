import ModuleSearch.Proofs.Catalog.Eager

/-!
# The survey of a module path

While the files do not change, the answers of a module path depend on nothing but the survey of its
entries: `answers_ofEntries_eq`. A place can be left out of a survey if all its modules are known
when it is reached: `surveyFrom_insert`.
-/

namespace ModuleSearch

namespace Modules

variable {found : Modules} {modules : List LocatedModule} {name : String}

theorem addAllNew_eq_self (h : ∀ m ∈ modules, (found.get? m.name).isSome) :
    found.addAllNew modules = found := by
  apply ext_get?
  intro name
  rw [get?_addAllNew]
  cases hget : found.get? name with
  | some m => rfl
  | none =>
      rw [Option.none_or, List.find?_eq_none]
      intro m hm hname
      have hsome := h m hm
      rw [beq_iff_eq.mp hname, hget] at hsome
      cases hsome

theorem isSome_get?_addAllNew (found : Modules) {m : LocatedModule} (hm : m ∈ modules) :
    ((found.addAllNew modules).get? m.name).isSome := by
  rw [get?_addAllNew, Option.isSome_or, Bool.or_eq_true, List.find?_isSome]
  exact .inr ⟨m, hm, beq_self_eq_true _⟩

end Modules

namespace Scanner

variable {s s' : Surroundings} {found found' : Modules} {pending front : List Scan} {scan : Scan}
  {e : SearchError}

theorem surveyFrom_cons_ok {modules : List LocatedModule} (h : scan.run s = .ok modules)
    (found : Modules) (pending : List Scan) :
    surveyFrom s found (scan :: pending) = surveyFrom s (found.addAllNew modules) pending := by
  rw [surveyFrom, h]

theorem surveyFrom_cons_error (h : scan.run s = .error e) (found : Modules)
    (pending : List Scan) : surveyFrom s found (scan :: pending) = ⟨found, some e⟩ := by
  rw [surveyFrom, h]

theorem surveyFrom_append_of_success (h : surveyFrom s found pending = ⟨found', none⟩)
    (later : List Scan) :
    surveyFrom s found (pending ++ later) = surveyFrom s found' later := by
  induction pending generalizing found with
  | nil =>
      obtain rfl : found = found' := congrArg Survey.modules h
      rfl
  | cons scan pending ih =>
      rw [List.cons_append]
      cases hrun : scan.run s with
      | error e =>
          rw [surveyFrom_cons_error hrun] at h
          cases congrArg Survey.failure h
      | ok modules =>
          rw [surveyFrom_cons_ok hrun] at h ⊢
          exact ih h

theorem surveyFrom_append_of_failure (h : (surveyFrom s found pending).failure = some e)
    (later : List Scan) :
    surveyFrom s found (pending ++ later) = surveyFrom s found pending := by
  induction pending generalizing found with
  | nil => cases h
  | cons scan pending ih =>
      rw [List.cons_append]
      cases hrun : scan.run s with
      | error e' => rw [surveyFrom_cons_error hrun, surveyFrom_cons_error hrun]
      | ok modules =>
          rw [surveyFrom_cons_ok hrun] at h
          rw [surveyFrom_cons_ok hrun, surveyFrom_cons_ok hrun]
          exact ih h

theorem surveyFrom_congr (h : ∀ scan ∈ pending, scan.run s = scan.run s') (found : Modules) :
    surveyFrom s found pending = surveyFrom s' found pending := by
  induction pending generalizing found with
  | nil => rfl
  | cons scan pending ih =>
      obtain ⟨hscan, hpending⟩ := List.forall_mem_cons.mp h
      rw [surveyFrom, surveyFrom, hscan]
      cases scan.run s' with
      | error e => rfl
      | ok modules => exact ih hpending _

/-- After a survey without failure every name that one of its places has is known. -/
theorem run_of_mem_pending (h : surveyFrom s found pending = ⟨found', none⟩)
    (hscan : scan ∈ pending) :
    ∃ modules, scan.run s = .ok modules ∧ ∀ m ∈ modules, (found'.get? m.name).isSome := by
  induction pending generalizing found with
  | nil => cases hscan
  | cons first pending ih =>
      cases hrun : first.run s with
      | error e =>
          rw [surveyFrom_cons_error hrun] at h
          cases congrArg Survey.failure h
      | ok modules =>
          rw [surveyFrom_cons_ok hrun] at h
          rcases List.mem_cons.mp hscan with rfl | hscan
          · refine ⟨modules, hrun, fun m hm => ?_⟩
            have hknown := Modules.isSome_get?_addAllNew found hm
            obtain ⟨n, hn⟩ := Option.isSome_iff_exists.mp hknown
            have hwithin := within_surveyFrom s (found.addAllNew modules) pending m.name n hn
            rw [h] at hwithin
            exact Option.isSome_of_mem hwithin
          · exact ih h hscan

/-- A place can be left out if all its modules are known when it is reached. -/
theorem surveyFrom_insert
    (h : ∀ known, surveyFrom s found front = ⟨known, none⟩ →
      ∃ modules, scan.run s = .ok modules ∧ ∀ m ∈ modules, (known.get? m.name).isSome)
    (back : List Scan) :
    surveyFrom s found (front ++ scan :: back) = surveyFrom s found (front ++ back) := by
  rcases hfront : surveyFrom s found front with ⟨known, _ | e⟩
  · obtain ⟨modules, hrun, hknown⟩ := h known hfront
    rw [surveyFrom_append_of_success hfront, surveyFrom_append_of_success hfront,
      surveyFrom_cons_ok hrun, Modules.addAllNew_eq_self hknown]
  · have hfailure := congrArg Survey.failure hfront
    rw [surveyFrom_append_of_failure hfailure, surveyFrom_append_of_failure hfailure]

end Scanner

namespace Catalog

/-- What reading all entries would give. -/
def surveyOf (s : Surroundings) (entries : List Path) : Survey :=
  Scanner.surveyFrom s .empty (entries.map .entry)

theorem survey_scanners_ofEntries (s : Surroundings) (entries : List Path) :
    Chain.survey s (ofEntries entries).scanners = surveyOf s entries :=
  Survey.followedBy_nothing _

theorem answers_ofEntries_eq (s : Surroundings) (entries : List Path) (queries : List Query) :
    (ofEntries entries).answers (queries.map (Step.mk s)) =
      untilError (queries.map (surveyOf s entries).answer) := by
  rw [answers_eq (.ofEntries entries), ← survey_scanners_ofEntries]
  exact answersOf_single s _ queries

theorem findAll_ofEntries (s : Surroundings) (entries : List Path) :
    ((ofEntries entries).findAll s).1 = (surveyOf s entries).all.map Modules.toList := by
  rw [findAll_eq_all (wellFormed_of_reachable (.ofEntries entries)), survey_scanners_ofEntries]

end Catalog

end ModuleSearch
