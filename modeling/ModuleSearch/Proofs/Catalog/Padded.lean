import ModuleSearch.Proofs.Catalog.Entries

/-!
# Entries that make no difference

An entry at which there is nothing gives no module, and an entry that stands before gives only
modules that are known by then. While the files do not change, a module path into which such entries
were put answers as it did without them: `answers_of_padded`.
-/

namespace ModuleSearch

/-- Entries into which others were put: paths at which there is nothing, anywhere, and paths behind
a place where they stand already. -/
inductive Padded (storage : Storage) (entries : List Path) : List Path → Prop
  | refl : Padded storage entries entries
  | absent {front back : List Path} {p : Path} (hp : storage.isPresent p = false)
      (h : Padded storage entries (front ++ back)) : Padded storage entries (front ++ p :: back)
  | again {front back : List Path} {p : Path} (hp : p ∈ front)
      (h : Padded storage entries (front ++ back)) : Padded storage entries (front ++ p :: back)

variable {s : Surroundings} {entries padded front : List Path} {p : Path}

theorem scan_of_absent (hp : s.storage.isPresent p = false) : s.scan p = .ok [] := by
  have hclassify : Candidate.classify s.storage p = .ok (.absent p) := by
    simp [Candidate.classify, hp]
  rw [Surroundings.scan, hclassify]
  rfl

namespace Catalog

theorem surveyOf_insert_absent (hp : s.storage.isPresent p = false) (front back : List Path) :
    surveyOf s (front ++ p :: back) = surveyOf s (front ++ back) := by
  rw [surveyOf, surveyOf, List.map_append, List.map_append, List.map_cons]
  refine Scanner.surveyFrom_insert (fun known _ => ?_) _
  exact ⟨[], scan_of_absent hp, by simp⟩

theorem surveyOf_insert_again (hp : p ∈ front) (back : List Path) :
    surveyOf s (front ++ p :: back) = surveyOf s (front ++ back) := by
  rw [surveyOf, surveyOf, List.map_append, List.map_append, List.map_cons]
  refine Scanner.surveyFrom_insert (fun known hknown => ?_) _
  -- the files have not changed, so the second scan gives what the first one gave
  exact Scanner.run_of_mem_pending hknown (List.mem_map_of_mem hp)

theorem surveyOf_padded (h : Padded s.storage entries padded) :
    surveyOf s padded = surveyOf s entries := by
  induction h with
  | refl => rfl
  | absent hp _ ih => rw [surveyOf_insert_absent hp, ih]
  | again hp _ ih => rw [surveyOf_insert_again hp, ih]

/-- Entries that do not exist, and entries that are repeated, change neither an answer nor an
error. -/
theorem answers_of_padded (h : Padded s.storage entries padded) (queries : List Query) :
    (ofEntries padded).answers (queries.map (Step.mk s)) =
      (ofEntries entries).answers (queries.map (Step.mk s)) := by
  rw [answers_ofEntries_eq, answers_ofEntries_eq, surveyOf_padded h]

/-- The entries `/m` and `/broken`, which cannot be read, with paths put in at which there is
nothing, and with both of them repeated. -/
theorem padded_sample :
    Padded Surroundings.sample.storage [⟨"/m"⟩, ⟨"/broken"⟩]
      [⟨"/none"⟩, ⟨"/m"⟩, ⟨"/m"⟩, ⟨"/none"⟩, ⟨"/broken"⟩, ⟨"/m"⟩, ⟨"/broken"⟩] := by
  have hnone : Surroundings.sample.storage.isPresent ⟨"/none"⟩ = false := by decide +kernel
  have hentries : Padded Surroundings.sample.storage [⟨"/m"⟩, ⟨"/broken"⟩] [⟨"/m"⟩, ⟨"/broken"⟩] :=
    .refl
  have hbroken : Padded _ _ ([⟨"/m"⟩, ⟨"/broken"⟩] ++ [⟨"/broken"⟩]) := .again (by simp) hentries
  have hrepeated : Padded _ _ ([⟨"/m"⟩, ⟨"/broken"⟩] ++ [⟨"/m"⟩, ⟨"/broken"⟩]) :=
    .again (by simp) hbroken
  have hgap : Padded _ _ ([⟨"/m"⟩] ++ [⟨"/none"⟩, ⟨"/broken"⟩, ⟨"/m"⟩, ⟨"/broken"⟩]) :=
    .absent hnone hrepeated
  have htwice : Padded _ _ ([⟨"/m"⟩] ++ [⟨"/m"⟩, ⟨"/none"⟩, ⟨"/broken"⟩, ⟨"/m"⟩, ⟨"/broken"⟩]) :=
    .again (by simp) hgap
  have hstart : Padded _ _
      ([] ++ [⟨"/none"⟩, ⟨"/m"⟩, ⟨"/m"⟩, ⟨"/none"⟩, ⟨"/broken"⟩, ⟨"/m"⟩, ⟨"/broken"⟩]) :=
    .absent hnone htwice
  exact hstart

theorem answers_of_padded_sample :
    let entries : List Path := [⟨"/m"⟩, ⟨"/broken"⟩]
    let padded : List Path :=
      [⟨"/none"⟩, ⟨"/m"⟩, ⟨"/m"⟩, ⟨"/none"⟩, ⟨"/broken"⟩, ⟨"/m"⟩, ⟨"/broken"⟩]
    let run := [Query.find "m", .find "n", .findAll].map (Step.mk .sample)
    Padded Surroundings.sample.storage entries padded ∧
      (ofEntries padded).answers run = (ofEntries entries).answers run ∧
      (ofEntries padded).answers run =
        [.ok (.one (some .sample)), .error (.unreadable ⟨"/broken"⟩), .error .unusable] := by
  intro entries padded run
  have h : Padded Surroundings.sample.storage entries padded := padded_sample
  have hanswers := answers_of_padded h [.find "m", .find "n", .findAll]
  refine ⟨h, hanswers, hanswers.trans ?_⟩
  decide +kernel

end Catalog

end ModuleSearch
