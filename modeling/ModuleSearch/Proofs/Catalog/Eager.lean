import ModuleSearch.Proofs.Catalog.Parts

/-!
# Module paths without laziness

While the files do not change, a module path answers as if all of its entries up to the first that
cannot be scanned had been scanned at once: `answers_ofEntries`. Up to the first error no answer
depends on the queries before it.
-/

namespace ModuleSearch

open Chain (Settled)

def fails (s : Surroundings) (entry : Path) : Bool := !(s.scan entry).isOk

/-- The position of the first entry that cannot be scanned, or the number of entries. -/
def firstFailing (s : Surroundings) (entries : List Path) : Nat := entries.findIdx (fails s)

def scanned (s : Surroundings) (entry : Path) : List LocatedModule :=
  (s.scan entry).toOption.getD []

/-- The modules of the entries before the first that cannot be scanned; of several with one name
that of the first entry counts. -/
def unionBefore (s : Surroundings) (entries : List Path) (name : String) : Option LocatedModule :=
  ((entries.take (firstFailing s entries)).flatMap (scanned s)).find? fun m => m.name == name

def failureOf (s : Surroundings) (entry : Path) : Option SearchError :=
  match s.scan entry with
  | .error e => some e
  | .ok _ => none

def failureAt (s : Surroundings) (entries : List Path) : Option SearchError :=
  entries[firstFailing s entries]?.bind (failureOf s)

/-- The answer to a query if everything is scanned at once. -/
def eagerReply (s : Surroundings) (entries : List Path) (listing : List LocatedModule) :
    Query → Reply
  | .find name =>
    match unionBefore s entries name, failureAt s entries with
    | some m, _ => .ok (.one (some m))
    | none, some e => .error e
    | none, none => .ok (.one none)
  | .findAll =>
    match failureAt s entries with
    | some e => .error e
    | none => .ok (.all listing)

/-- After the first error every query fails. -/
def untilError : List Reply → List Reply
  | [] => []
  | .ok answer :: rest => .ok answer :: untilError rest
  | .error e :: rest => .error e :: rest.map fun _ => .error .unusable

variable {s : Surroundings} {entry : Path} {e : SearchError} {modules : List LocatedModule}

theorem firstFailing_cons_error (h : s.scan entry = .error e) (rest : List Path) :
    firstFailing s (entry :: rest) = 0 := by
  simp [firstFailing, fails, h, List.findIdx_cons, Except.isOk, Except.toBool]

theorem firstFailing_cons_ok (h : s.scan entry = .ok modules) (rest : List Path) :
    firstFailing s (entry :: rest) = firstFailing s rest + 1 := by
  simp [firstFailing, fails, h, List.findIdx_cons, Except.isOk, Except.toBool]

theorem unionBefore_cons_ok (h : s.scan entry = .ok modules) (rest : List Path) (name : String) :
    unionBefore s (entry :: rest) name =
      (modules.find? fun m => m.name == name).or (unionBefore s rest name) := by
  rw [unionBefore, firstFailing_cons_ok h, List.take_succ_cons, List.flatMap_cons,
    List.find?_append, scanned, h]
  rfl

theorem failureAt_cons_ok (h : s.scan entry = .ok modules) (rest : List Path) :
    failureAt s (entry :: rest) = failureAt s rest := by
  rw [failureAt, firstFailing_cons_ok h, List.getElem?_cons_succ]
  rfl

theorem get?_surveyFrom (s : Surroundings) (found : Modules) (entries : List Path)
    (name : String) :
    (Scanner.surveyFrom s found (entries.map .entry)).modules.get? name =
      (found.get? name).or (unionBefore s entries name) := by
  induction entries generalizing found with
  | nil => simp [Scanner.surveyFrom, unionBefore, firstFailing]
  | cons entry rest ih =>
      rw [List.map_cons, Scanner.surveyFrom, Scan.run]
      cases hscan : s.scan entry with
      | error e => simp [unionBefore, firstFailing_cons_error hscan]
      | ok modules =>
          simp only
          rw [ih, Modules.get?_addAllNew, unionBefore_cons_ok hscan, Option.or_assoc]

theorem failure_surveyFrom (s : Surroundings) (found : Modules) (entries : List Path) :
    (Scanner.surveyFrom s found (entries.map .entry)).failure = failureAt s entries := by
  induction entries generalizing found with
  | nil => rfl
  | cons entry rest ih =>
      rw [List.map_cons, Scanner.surveyFrom, Scan.run]
      cases hscan : s.scan entry with
      | error e => simp [failureAt, firstFailing_cons_error hscan, failureOf, hscan]
      | ok modules =>
          simp only
          rw [ih, failureAt_cons_ok hscan]

theorem survey_ofEntries (s : Surroundings) (entries : List Path) :
    ∃ found : Modules, found.get? = unionBefore s entries ∧
      Chain.survey s (Catalog.ofEntries entries).scanners = ⟨found, failureAt s entries⟩ := by
  refine ⟨(Scanner.surveyFrom s .empty (entries.map .entry)).modules, ?_, ?_⟩
  · funext name
    rw [get?_surveyFrom, Modules.get?_empty, Option.none_or]
  · rw [← failure_surveyFrom s .empty]
    exact Survey.followedBy_nothing _

theorem answersOf_single (s : Surroundings) (scanner : Scanner) (queries : List Query) :
    answersOf Chain.ask [scanner] (queries.map (Step.mk s)) =
      untilError (queries.map (Chain.survey s [scanner]).answer) := by
  induction queries generalizing scanner with
  | nil => rfl
  | cons q rest ih =>
      simp only [List.map_cons, answersOf]
      have hreply := Chain.ask_answer s q [scanner]
      obtain ⟨next, hnext⟩ := Chain.ask_singleton s q scanner
      cases hanswer : (Chain.survey s [scanner]).answer q with
      | ok answer =>
          have hsurvey := Chain.survey_ask (hreply.trans hanswer)
          rw [hnext] at hsurvey ⊢
          rw [hreply, hanswer, ih, hsurvey]
          rfl
      | error e =>
          have hsettled := Chain.settled_of_error (hreply.trans hanswer)
          rw [hnext] at hsettled ⊢
          rw [hreply, hanswer, hsettled.answers_eq, hsettled.eq_unusable rfl]
          simp only [Survey.answer_unusable, List.map_map, untilError]
          rfl

theorem untilError_of_success (answer : Query → Answer) (queries : List Query) :
    untilError (queries.map fun q => .ok (answer q)) = queries.map fun q => .ok (answer q) := by
  induction queries with
  | nil => rfl
  | cons q rest ih => exact congrArg _ ih

/-- While the files do not change, a module path answers until the first error as if everything
had been scanned at once. -/
theorem answers_ofEntries (s : Surroundings) (entries : List Path) (queries : List Query) :
    ∃ listing, IsListing (unionBefore s entries) listing ∧
      (Catalog.ofEntries entries).answers (queries.map (Step.mk s)) =
        untilError (queries.map (eagerReply s entries listing)) := by
  obtain ⟨found, hget, hsurvey⟩ := survey_ofEntries s entries
  refine ⟨found.toList, hget ▸ found.isListing, ?_⟩
  rw [Catalog.answers_eq (.ofEntries entries)]
  have hrun := answersOf_single s (PathState.scanning entries .empty).scanner queries
  refine hrun.trans (congrArg untilError (List.map_congr_left ?_))
  intro q _
  change (Chain.survey s (Catalog.ofEntries entries).scanners).answer q = _
  rw [hsurvey]
  cases q with
  | find name =>
      rw [Survey.answer, Survey.lookup, eagerReply, ← hget]
      cases found.get? name with
      | some m => rfl
      | none => cases failureAt s entries <;> rfl
  | findAll =>
      rw [Survey.answer, Survey.all, eagerReply]
      cases failureAt s entries <;> rfl

end ModuleSearch
