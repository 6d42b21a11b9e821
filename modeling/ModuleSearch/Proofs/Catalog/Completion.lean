import ModuleSearch.Proofs.Catalog.Parts

/-!
# Catalogs that have been read

A query that finds nothing, and one that lists all modules, read every part of a catalog to its
end. From then on no query fails, and all answers are read off the same modules:
`answers_after_completion`. So it does not matter what happens to the files.
-/

namespace ModuleSearch

open Chain (Settled)

/-- Only a module that was found can leave something unread. -/
def Answer.Completes : Answer → Prop
  | one m => m = none
  | all _ => True

/-- The answer if these are all modules. -/
def Modules.answer (found : Modules) : Query → Answer
  | .find name => .one (found.get? name)
  | .findAll => .all found.toList

theorem answer_of_success (found : Modules) (q : Query) :
    (Survey.mk found none).answer q = .ok (found.answer q) := by
  cases q with
  | find name =>
      rw [Survey.answer, Survey.lookup_of_success rfl]
      rfl
  | findAll => rfl

theorem Chain.settled_of_find_none {s : Surroundings} {name : String} {chain : List Scanner}
    (h : (find s name chain).1 = .ok none) :
    ∃ found : Modules, found.get? name = none ∧ Settled (find s name chain).2 ⟨found, none⟩ := by
  induction chain with
  | nil => exact ⟨.empty, rfl, .nil⟩
  | cons scanner rest ih =>
      rw [find] at h ⊢
      rcases scanner.find_cases s name with ⟨e, hfind, -⟩ | ⟨found, hfind, hget, -⟩ |
        ⟨m, pending, found, hfind, -, -⟩
      · simp [hfind] at h
      · simp only [hfind] at h ⊢
        obtain ⟨others, hothers, hrest⟩ := ih h
        refine ⟨found.union others, ?_, .cons hrest⟩
        rw [Modules.get?_union, hget, hothers]
        rfl
      · simp [hfind] at h

/-- After an answer that completes it, a chain has nothing left to read. -/
theorem Chain.settled_of_completes {s : Surroundings} {q : Query} {chain : List Scanner}
    {answer : Answer} (h : (ask s q chain).1 = .ok answer) (hcomplete : answer.Completes) :
    ∃ found : Modules, answer = found.answer q ∧ Settled (ask s q chain).2 ⟨found, none⟩ := by
  cases q with
  | find name =>
      obtain ⟨m, hfind, rfl⟩ := map_eq_ok_iff.mp h
      obtain rfl : m = none := hcomplete
      obtain ⟨found, hget, hsettled⟩ := settled_of_find_none hfind
      exact ⟨found, by rw [Modules.answer, hget], hsettled⟩
  | findAll =>
      obtain ⟨found, hfound, rfl⟩ := map_eq_ok_iff.mp h
      exact ⟨found, rfl, settled_of_complete (Prod.ext hfound rfl)⟩

/-- Once a catalog has answered that there is no module of a name, or which modules there are, no
query on it fails, and the answers do not depend on the files any more. -/
theorem answers_after_completion {c : Catalog} (hc : c.Reachable) {s : Surroundings} {q : Query}
    {answer : Answer} (h : (c.ask s q).1 = .ok answer) (hcomplete : answer.Completes) :
    ∃ found : Modules, answer = found.answer q ∧
      ∀ run, (c.ask s q).2.answers run = run.map fun step => .ok (found.answer step.query) := by
  obtain ⟨hreply, hscanners, -⟩ := Catalog.ask_scanners (Catalog.wellFormed_of_reachable hc) s q
  obtain ⟨found, hanswer, hsettled⟩ := Chain.settled_of_completes (hreply.symm.trans h) hcomplete
  rw [← hscanners] at hsettled
  refine ⟨found, hanswer, ?_⟩
  intro run
  rw [Catalog.answers_eq (.ask s q hc), hsettled.answers_eq]
  simp only [answer_of_success]

/-- The files are gone after the first query. -/
theorem answers_after_completion_sample :
    let c := (Catalog.ofEntries [⟨"/m"⟩]).append (.append .empty (.ofEntries []))
    (c.ask .sample (.find "absent")).1 = .ok (.one none) ∧
    (Answer.one none).Completes ∧
    (c.ask .sample (.find "absent")).2.answers [⟨.bare, .find "m"⟩, ⟨.bare, .findAll⟩] =
      [.ok (.one (some .sample)), .ok (.all [.sample])] ∧
    ∃ found : Modules, Answer.one none = found.answer (.find "absent") ∧
      ∀ run, (c.ask .sample (.find "absent")).2.answers run =
        run.map fun step => .ok (found.answer step.query) := by
  intro c
  have hc : c.Reachable := .append (.ofEntries _) (.append .empty (.ofEntries _))
  have hanswer : (c.ask .sample (.find "absent")).1 = .ok (.one none) := by decide +kernel
  exact ⟨hanswer, rfl, by decide +kernel, answers_after_completion hc hanswer rfl⟩

end ModuleSearch
