import ModuleSearch.Proofs.Catalog.Scanner
import ModuleSearch.Proofs.Except

/-!
# Chains of scanners

A catalog looks in one part after the other. `ask_answer` gives the answer to any query as that of
a survey of all parts, and `survey_ask` says that a query that succeeds does not change the survey.
After a listing and after an error a chain is settled: it reads no more files.
-/

namespace ModuleSearch.Chain

def find (s : Surroundings) (name : String) :
    List Scanner → Except SearchError (Option LocatedModule) × List Scanner
  | [] => (.ok none, [])
  | scanner :: rest =>
    match scanner.find s name with
    | (.ok none, scanner) =>
      let (answer, rest) := find s name rest
      (answer, scanner :: rest)
    | (answer, scanner) => (answer, scanner :: rest)

def complete (s : Surroundings) : List Scanner → Except SearchError Modules × List Scanner
  | [] => (.ok .empty, [])
  | scanner :: rest =>
    match scanner.complete s with
    | (.error e, scanner) => (.error e, scanner :: rest)
    | (.ok found, scanner) =>
      let (others, rest) := complete s rest
      (others.map found.union, scanner :: rest)

def ask (s : Surroundings) : Query → List Scanner → Reply × List Scanner
  | .find name, chain =>
    let (answer, chain) := find s name chain
    (answer.map .one, chain)
  | .findAll, chain =>
    let (found, chain) := complete s chain
    (found.map fun found => .all found.toList, chain)

def survey (s : Surroundings) : List Scanner → Survey
  | [] => .nothing
  | scanner :: rest => (scanner.survey s).followedBy (survey s rest)

/-- The modules of the parts before the first that cannot be read to its end. -/
def readable (s : Surroundings) : List Scanner → Modules
  | [] => .empty
  | scanner :: rest =>
    match (scanner.survey s).failure with
    | some _ => .empty
    | none => (scanner.survey s).modules.union (readable s rest)

/-- No query reads a file any more, and the survey answers. -/
inductive Settled : List Scanner → Survey → Prop
  | nil : Settled [] .nothing
  | failed (rest : List Scanner) : Settled (.failed :: rest) .unusable
  | cons {found : Modules} {rest : List Scanner} {v : Survey} (h : Settled rest v) :
      Settled (.active [] found :: rest) ⟨found.union v.modules, v.failure⟩

variable {s : Surroundings} {name : String} {chain next : List Scanner} {v w : Survey}

theorem find_answer (s : Surroundings) (name : String) (chain : List Scanner) :
    (find s name chain).1 = (survey s chain).lookup name := by
  induction chain with
  | nil => rfl
  | cons scanner rest ih =>
      have hscanner := scanner.find_answer s name
      rw [survey, Survey.lookup_followedBy, ← hscanner, find]
      rcases scanner.find s name with ⟨answer, scanner'⟩
      match answer with
      | .error e => rfl
      | .ok none => exact ih
      | .ok (some m) => rfl

theorem complete_answer (s : Surroundings) (chain : List Scanner) :
    (complete s chain).1 = (survey s chain).all := by
  induction chain with
  | nil => rfl
  | cons scanner rest ih =>
      have hscanner := scanner.complete_answer s
      rw [survey, Survey.all_followedBy, ← hscanner, complete]
      rcases scanner.complete s with ⟨answer, scanner'⟩
      cases answer with
      | error e => rfl
      | ok found => exact congrArg (Except.map found.union) ih

/-- A query is answered as if everything had been read before. -/
theorem ask_answer (s : Surroundings) (q : Query) (chain : List Scanner) :
    (ask s q chain).1 = (survey s chain).answer q := by
  cases q with
  | find name =>
      rw [Survey.answer, ← find_answer]
      rfl
  | findAll =>
      rw [Survey.answer, ← complete_answer]
      rfl

theorem survey_find {answer : Option LocatedModule} (h : (find s name chain).1 = .ok answer) :
    survey s (find s name chain).2 = survey s chain := by
  induction chain with
  | nil => rfl
  | cons scanner rest ih =>
      rw [find] at h ⊢
      rcases scanner.find_cases s name with ⟨e, hfind, -⟩ | ⟨found, hfind, -, hsurvey⟩ |
        ⟨m, pending, found, hfind, -, hsurvey⟩
      · simp [hfind] at h
      · simp only [hfind] at h ⊢
        rw [survey, survey, ih h, hsurvey]
        rfl
      · simp only [hfind]
        rw [survey, survey, hsurvey]

theorem survey_complete {found : Modules} (h : (complete s chain).1 = .ok found) :
    survey s (complete s chain).2 = survey s chain := by
  induction chain generalizing found with
  | nil => rfl
  | cons scanner rest ih =>
      rw [complete] at h ⊢
      rcases scanner.complete_cases s with ⟨e, hcomplete, -⟩ | ⟨found', hcomplete, hsurvey⟩
      · simp [hcomplete] at h
      · simp only [hcomplete] at h ⊢
        obtain ⟨others, hothers, -⟩ := map_eq_ok_iff.mp h
        rw [survey, survey, ih hothers, hsurvey]
        rfl

theorem survey_ask {q : Query} {answer : Answer} (h : (ask s q chain).1 = .ok answer) :
    survey s (ask s q chain).2 = survey s chain := by
  cases q with
  | find name =>
      obtain ⟨m, hfind, -⟩ := map_eq_ok_iff.mp h
      exact survey_find hfind
  | findAll =>
      obtain ⟨found, hcomplete, -⟩ := map_eq_ok_iff.mp h
      exact survey_complete hcomplete

theorem find_singleton (s : Surroundings) (name : String) (scanner : Scanner) :
    find s name [scanner] = ((scanner.find s name).1, [(scanner.find s name).2]) := by
  rw [find]
  rcases scanner.find s name with ⟨answer, scanner'⟩
  match answer with
  | .error e => rfl
  | .ok none => rfl
  | .ok (some m) => rfl

theorem complete_singleton (s : Surroundings) (scanner : Scanner) :
    complete s [scanner] = ((scanner.complete s).1, [(scanner.complete s).2]) := by
  rw [complete]
  rcases scanner.complete s with ⟨answer, scanner'⟩
  cases answer with
  | error e => rfl
  | ok found => simp [complete, Except.map]

theorem ask_singleton (s : Surroundings) (q : Query) (scanner : Scanner) :
    ∃ next, (ask s q [scanner]).2 = [next] := by
  cases q with
  | find name => exact ⟨_, congrArg Prod.snd (find_singleton s name scanner)⟩
  | findAll => exact ⟨_, congrArg Prod.snd (complete_singleton s scanner)⟩

theorem survey_append (s : Surroundings) (xs ys : List Scanner) :
    survey s (xs ++ ys) = (survey s xs).followedBy (survey s ys) := by
  induction xs with
  | nil => exact (Survey.nothing_followedBy _).symm
  | cons scanner rest ih => rw [List.cons_append, survey, survey, ih, Survey.followedBy_assoc]

theorem find_append (s : Surroundings) (name : String) (xs ys : List Scanner) :
    find s name (xs ++ ys) =
      match find s name xs with
      | (.ok none, xs) => ((find s name ys).1, xs ++ (find s name ys).2)
      | (answer, xs) => (answer, xs ++ ys) := by
  induction xs with
  | nil => rfl
  | cons scanner rest ih =>
      rw [List.cons_append, find, find]
      rcases scanner.find s name with ⟨answer, scanner'⟩
      match answer with
      | .error e => rfl
      | .ok (some m) => rfl
      | .ok none =>
          simp only [ih]
          rcases find s name rest with ⟨answer', rest'⟩
          match answer' with
          | .error e => rfl
          | .ok none => rfl
          | .ok (some m) => rfl

theorem complete_append (s : Surroundings) (xs ys : List Scanner) :
    complete s (xs ++ ys) =
      match complete s xs with
      | (.error e, xs) => (.error e, xs ++ ys)
      | (.ok found, xs) => ((complete s ys).1.map found.union, xs ++ (complete s ys).2) := by
  induction xs with
  | nil =>
      rw [List.nil_append, complete]
      rcases complete s ys with ⟨answer, ys'⟩
      cases answer <;> simp [Except.map]
  | cons scanner rest ih =>
      rw [List.cons_append, complete, complete]
      rcases scanner.complete s with ⟨answer, scanner'⟩
      cases answer with
      | error e => rfl
      | ok found =>
          simp only [ih]
          rcases complete s rest with ⟨answer', rest'⟩
          cases answer' with
          | error e => rfl
          | ok others => cases (complete s ys).1 <;> simp [Except.map, Modules.union_assoc]

namespace Settled

theorem survey_eq (h : Settled chain v) (s : Surroundings) : survey s chain = v := by
  induction h with
  | nil => rfl
  | failed rest => rfl
  | cons h ih =>
      rw [survey, ih]
      rfl

theorem find_eq (h : Settled chain v) (s : Surroundings) (name : String) :
    find s name chain = (v.lookup name, chain) := by
  refine Prod.ext ?_ ?_
  · rw [find_answer, h.survey_eq s]
  · induction h with
    | nil => rfl
    | failed rest => rfl
    | @cons found rest v h ih =>
        rw [find]
        cases hget : found.get? name with
        | none => simp [Scanner.find, Scanner.advance, Scanner.scanFrom, Except.map, hget, ih]
        | some m => simp [Scanner.find, Scanner.advance, Scanner.scanFrom, Except.map, hget]

theorem complete_eq (h : Settled chain v) (s : Surroundings) :
    complete s chain = (v.all, chain) := by
  refine Prod.ext ?_ ?_
  · rw [complete_answer, h.survey_eq s]
  · induction h with
    | nil => rfl
    | failed rest => rfl
    | cons h ih => simp [complete, Scanner.complete, Scanner.advance, Scanner.scanFrom, ih]

theorem ask_eq (h : Settled chain v) (s : Surroundings) (q : Query) :
    ask s q chain = (v.answer q, chain) := by
  cases q with
  | find name => rw [ask, h.find_eq s name, Survey.answer]
  | findAll => rw [ask, h.complete_eq s, Survey.answer]

theorem answers_eq (h : Settled chain v) (run : List Step) :
    answersOf ask chain run = run.map fun step => v.answer step.query :=
  answersOf_eq_map h.ask_eq run

theorem eq_unusable {scanner : Scanner} {e : SearchError} (h : Settled [scanner] v)
    (hv : v.failure = some e) : v = .unusable := by
  cases h with
  | failed _ => rfl
  | cons h =>
      cases h with
      | nil => simp [Survey.nothing] at hv

theorem append {xs ys : List Scanner} (hxs : Settled xs v) (hv : v.failure = none)
    (hys : Settled ys w) : Settled (xs ++ ys) (v.followedBy w) := by
  induction hxs with
  | nil => simpa [Survey.followedBy, Survey.nothing] using hys
  | failed rest => simp [Survey.unusable] at hv
  | @cons found rest v h ih =>
      have hrest : v.failure = none := hv
      have hsum : Settled (.active [] found :: (rest ++ ys)) _ := .cons (ih hrest)
      rw [Survey.followedBy_of_success hrest] at hsum
      rw [Survey.followedBy_of_success hv, Modules.union_assoc]
      exact hsum

theorem of_append {xs ys : List Scanner} (h : Settled (xs ++ ys) v) :
    ∃ a, Settled xs a ∧ (a.failure = none → ∃ b, Settled ys b) := by
  induction xs generalizing v with
  | nil => exact ⟨_, .nil, fun _ => ⟨v, h⟩⟩
  | cons scanner rest ih =>
      cases h with
      | failed _ => exact ⟨_, .failed rest, by simp [Survey.unusable]⟩
      | cons h =>
          obtain ⟨a, ha, hys⟩ := ih h
          exact ⟨_, .cons ha, hys⟩

end Settled

theorem readable_of_failure {scanner : Scanner} {e : SearchError}
    (h : (scanner.survey s).failure = some e) (rest : List Scanner) :
    readable s (scanner :: rest) = .empty := by
  rw [readable, h]

theorem readable_of_success {scanner : Scanner} {found : Modules}
    (h : scanner.survey s = ⟨found, none⟩) (rest : List Scanner) :
    readable s (scanner :: rest) = found.union (readable s rest) := by
  rw [readable, h]

theorem settled_of_find_error {e : SearchError} (h : (find s name chain).1 = .error e) :
    Settled (find s name chain).2 ⟨readable s chain, some .unusable⟩ := by
  induction chain with
  | nil => simp [find] at h
  | cons scanner rest ih =>
      rw [find] at h ⊢
      rcases scanner.find_cases s name with ⟨e', hfind, hlookup⟩ | ⟨found, hfind, -, hsurvey⟩ |
        ⟨m, pending, found, hfind, -, -⟩
      · simp only [hfind]
        rw [readable_of_failure (Survey.failure_of_lookup_error hlookup)]
        exact .failed rest
      · simp only [hfind] at h ⊢
        rw [readable_of_success hsurvey]
        exact .cons (ih h)
      · simp [hfind] at h

theorem settled_of_complete_error {e : SearchError} (h : (complete s chain).1 = .error e) :
    Settled (complete s chain).2 ⟨readable s chain, some .unusable⟩ := by
  induction chain with
  | nil => simp [complete] at h
  | cons scanner rest ih =>
      rw [complete] at h ⊢
      rcases scanner.complete_cases s with ⟨e', hcomplete, hfailure⟩ | ⟨found, hcomplete, hsurvey⟩
      · simp only [hcomplete]
        rw [readable_of_failure hfailure]
        exact .failed rest
      · simp only [hcomplete] at h ⊢
        rw [readable_of_success hsurvey]
        exact .cons (ih (map_eq_error_iff.mp h))

/-- After an error a chain is settled, and keeps what stood before the part that failed. -/
theorem settled_of_error {q : Query} {e : SearchError} (h : (ask s q chain).1 = .error e) :
    Settled (ask s q chain).2 ⟨readable s chain, some .unusable⟩ := by
  cases q with
  | find name => exact settled_of_find_error (map_eq_error_iff.mp h)
  | findAll => exact settled_of_complete_error (map_eq_error_iff.mp h)

theorem settled_of_complete {found : Modules} (h : complete s chain = (.ok found, next)) :
    Settled next ⟨found, none⟩ := by
  induction chain generalizing found next with
  | nil =>
      obtain ⟨rfl, rfl⟩ : Modules.empty = found ∧ [] = next := by simpa [complete] using h
      exact .nil
  | cons scanner rest ih =>
      rw [complete] at h
      rcases scanner.complete_cases s with ⟨e', hcomplete, -⟩ | ⟨found', hcomplete, -⟩
      · simp [hcomplete] at h
      · simp only [hcomplete, Prod.mk.injEq] at h
        obtain ⟨hmap, rfl⟩ := h
        obtain ⟨others, hothers, rfl⟩ := map_eq_ok_iff.mp hmap
        exact .cons (ih (Prod.ext hothers rfl))

end ModuleSearch.Chain
