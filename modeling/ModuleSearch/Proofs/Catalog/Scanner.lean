import ModuleSearch.Proofs.Catalog.Survey

/-!
# Scanners

A part of a catalog that reads files of its own, be it a module path or a packed image, has a list
of places that are still to be read, and reads as many of them as a query needs. `advance_ok` and
`advance_error` say all that one query can do to it.
-/

namespace ModuleSearch

inductive Scan where
  | entry (path : Path)
  | image (path : Path)

def Scan.run (s : Surroundings) : Scan → Except SearchError (List LocatedModule)
  | entry path => s.scan path
  | image path => s.scanImage path

inductive Scanner where
  | active (pending : List Scan) (found : Modules)
  | failed

namespace Scanner

def scanFrom (s : Surroundings) (enough : Modules → Bool) (found : Modules) :
    List Scan → Except SearchError Modules × Scanner
  | [] => (.ok found, active [] found)
  | scan :: pending =>
    if enough found then (.ok found, active (scan :: pending) found)
    else
      match scan.run s with
      | .error e => (.error e, failed)
      | .ok modules => scanFrom s enough (found.addAllNew modules) pending

def advance (s : Surroundings) (enough : Modules → Bool) :
    Scanner → Except SearchError Modules × Scanner
  | active pending found => scanFrom s enough found pending
  | failed => (.error .unusable, failed)

def find (s : Surroundings) (name : String) (scanner : Scanner) :
    Except SearchError (Option LocatedModule) × Scanner :=
  let (found, scanner) := scanner.advance s fun found => (found.get? name).isSome
  (found.map fun found => found.get? name, scanner)

def complete (s : Surroundings) (scanner : Scanner) : Except SearchError Modules × Scanner :=
  scanner.advance s fun _ => false

def surveyFrom (s : Surroundings) (found : Modules) : List Scan → Survey
  | [] => ⟨found, none⟩
  | scan :: pending =>
    match scan.run s with
    | .error e => ⟨found, some e⟩
    | .ok modules => surveyFrom s (found.addAllNew modules) pending

/-- What reading everything that is pending would give. -/
def survey (s : Surroundings) : Scanner → Survey
  | active pending found => surveyFrom s found pending
  | failed => .unusable

theorem within_surveyFrom (s : Surroundings) (found : Modules) (pending : List Scan) :
    found.Within (surveyFrom s found pending).modules := by
  induction pending generalizing found with
  | nil => exact .refl found
  | cons scan pending ih =>
      rw [surveyFrom]
      cases scan.run s with
      | error e => exact .refl found
      | ok modules => exact (found.within_addAllNew modules).trans (ih _)

/-- A query that succeeds stops where enough was found, and leaves the survey as it was. -/
theorem scanFrom_ok {s : Surroundings} {enough : Modules → Bool} {found found' : Modules}
    {pending : List Scan} {next : Scanner}
    (h : scanFrom s enough found pending = (.ok found', next)) :
    ∃ pending', next = active pending' found' ∧ (pending' = [] ∨ enough found' = true) ∧
      surveyFrom s found' pending' = surveyFrom s found pending ∧ found.Within found' ∧
      (pending = [] → next = active [] found) := by
  induction pending generalizing found with
  | nil =>
      obtain ⟨rfl, rfl⟩ : found = found' ∧ active [] found = next := by
        simpa [scanFrom] using h
      exact ⟨[], rfl, .inl rfl, rfl, .refl _, fun _ => rfl⟩
  | cons scan pending ih =>
      rw [scanFrom] at h
      split at h
      · rename_i henough
        obtain ⟨rfl, rfl⟩ : found = found' ∧ active (scan :: pending) found = next := by
          simpa using h
        exact ⟨_, rfl, .inr henough, rfl, .refl _, by simp⟩
      · cases hrun : scan.run s with
        | error e => simp [hrun] at h
        | ok modules =>
            simp only [hrun] at h
            obtain ⟨pending', hnext, hstop, hsurvey, hwithin, -⟩ := ih h
            refine ⟨pending', hnext, hstop, ?_, ?_, by simp⟩
            · rw [hsurvey, surveyFrom, hrun]
            · exact (found.within_addAllNew modules).trans hwithin

/-- A query fails with what the survey says, and only if it has not found enough before. -/
theorem scanFrom_error {s : Surroundings} {enough : Modules → Bool} {found : Modules}
    {pending : List Scan} {e : SearchError} {next : Scanner}
    (h : scanFrom s enough found pending = (.error e, next)) :
    next = failed ∧ (surveyFrom s found pending).failure = some e ∧
      enough (surveyFrom s found pending).modules = false := by
  induction pending generalizing found with
  | nil => simp [scanFrom] at h
  | cons scan pending ih =>
      rw [scanFrom] at h
      split at h
      · simp at h
      · rename_i henough
        rw [surveyFrom]
        cases hrun : scan.run s with
        | error e' =>
            obtain ⟨rfl, rfl⟩ : e' = e ∧ failed = next := by
              simpa [hrun] using h
            exact ⟨rfl, rfl, by simpa using henough⟩
        | ok modules =>
            simp only [hrun] at h
            exact ih h

theorem advance_ok {s : Surroundings} {enough : Modules → Bool} {scanner next : Scanner}
    {found' : Modules} (h : scanner.advance s enough = (.ok found', next)) :
    ∃ pending found pending', scanner = active pending found ∧ next = active pending' found' ∧
      (pending' = [] ∨ enough found' = true) ∧ next.survey s = scanner.survey s ∧
      found.Within found' ∧ (pending = [] → next = scanner) := by
  cases scanner with
  | failed => simp [advance] at h
  | active pending found =>
      obtain ⟨pending', rfl, hstop, hsurvey, hwithin, hdone⟩ := scanFrom_ok h
      refine ⟨pending, found, pending', rfl, rfl, hstop, hsurvey, hwithin, ?_⟩
      rintro rfl
      exact hdone rfl

theorem advance_error {s : Surroundings} {enough : Modules → Bool} {scanner next : Scanner}
    {e : SearchError} (h : scanner.advance s enough = (.error e, next)) :
    next = failed ∧ (scanner.survey s).failure = some e ∧
      ((scanner.survey s).modules = .empty ∨ enough (scanner.survey s).modules = false) := by
  cases scanner with
  | failed =>
      obtain ⟨rfl, rfl⟩ : SearchError.unusable = e ∧ failed = next := by
        simpa [advance] using h
      exact ⟨rfl, rfl, .inl rfl⟩
  | active pending found =>
      obtain ⟨hnext, hfailure, henough⟩ := scanFrom_error h
      exact ⟨hnext, hfailure, .inr henough⟩

/-- All that looking up one name can do. -/
theorem find_cases (s : Surroundings) (name : String) (scanner : Scanner) :
    (∃ e, scanner.find s name = (.error e, failed) ∧
      (scanner.survey s).lookup name = .error e) ∨
    (∃ found, scanner.find s name = (.ok none, active [] found) ∧ found.get? name = none ∧
      scanner.survey s = ⟨found, none⟩) ∨
    (∃ m pending found, scanner.find s name = (.ok (some m), active pending found) ∧
      found.get? name = some m ∧ scanner.survey s = (active pending found).survey s) := by
  rcases hadvance : scanner.advance s fun found => (found.get? name).isSome
    with ⟨answer, next⟩
  rw [find, hadvance]
  cases answer with
  | error e =>
      obtain ⟨rfl, hfailure, hmissing⟩ := advance_error hadvance
      refine .inl ⟨e, rfl, ?_⟩
      have hget : (scanner.survey s).modules.get? name = none := by
        rcases hmissing with hempty | hmissing
        · rw [hempty]
          exact Modules.get?_empty name
        · simpa using hmissing
      exact Survey.lookup_of_failure hget hfailure
  | ok found' =>
      obtain ⟨-, -, pending', -, rfl, hstop, hsurvey, -, -⟩ := advance_ok hadvance
      refine .inr ?_
      cases hget : found'.get? name with
      | none =>
          obtain rfl : pending' = [] := hstop.resolve_right (by simp [hget])
          exact .inl ⟨found', by simp [Except.map, hget], hget, hsurvey.symm⟩
      | some m =>
          exact .inr ⟨m, pending', found', by simp [Except.map, hget], hget, hsurvey.symm⟩

theorem complete_cases (s : Surroundings) (scanner : Scanner) :
    (∃ e, scanner.complete s = (.error e, failed) ∧ (scanner.survey s).failure = some e) ∨
    (∃ found, scanner.complete s = (.ok found, active [] found) ∧
      scanner.survey s = ⟨found, none⟩) := by
  rcases hadvance : scanner.advance s fun _ => false with ⟨answer, next⟩
  rw [complete, hadvance]
  cases answer with
  | error e =>
      obtain ⟨rfl, hfailure, -⟩ := advance_error hadvance
      exact .inl ⟨e, rfl, hfailure⟩
  | ok found' =>
      obtain ⟨-, -, pending', -, rfl, hstop, hsurvey, -, -⟩ := advance_ok hadvance
      obtain rfl : pending' = [] := hstop.resolve_right (by simp)
      exact .inr ⟨found', rfl, hsurvey.symm⟩

theorem find_answer (s : Surroundings) (name : String) (scanner : Scanner) :
    (scanner.find s name).1 = (scanner.survey s).lookup name := by
  rcases find_cases s name scanner with ⟨e, h, hlookup⟩ | ⟨found, h, hget, hsurvey⟩ |
    ⟨m, pending, found, h, hget, hsurvey⟩
  · rw [h, hlookup]
  · rw [h, hsurvey, Survey.lookup_of_success rfl, hget]
  · have hwithin := within_surveyFrom s found pending name m hget
    rw [h, hsurvey, survey, Survey.lookup_of_found hwithin]

theorem complete_answer (s : Surroundings) (scanner : Scanner) :
    (scanner.complete s).1 = (scanner.survey s).all := by
  rcases complete_cases s scanner with ⟨e, h, hfailure⟩ | ⟨found, h, hsurvey⟩
  · rw [h, Survey.all, hfailure]
  · rw [h, hsurvey, Survey.all]

end Scanner

end ModuleSearch
