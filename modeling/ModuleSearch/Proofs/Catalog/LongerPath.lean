import ModuleSearch.Proofs.Catalog.Parts

/-!
# Module paths one after the other

Two module paths that are joined answer like the one path with the entries of both, until a query
fails: `throughError_answers_ofEntries`. The longer path has one list of places to read where the
joined ones have two. The second of these is not begun before the first is done (`Fused`), so both
ways read the same places at the same query.
-/

namespace ModuleSearch

namespace Scanner

variable {s : Surroundings} {enough : Modules → Bool} {found found' : Modules}
  {pending pending' : List Scan}

theorem scanFrom_of_enough (h : enough found = true) (pending : List Scan) :
    scanFrom s enough found pending = (.ok found, active pending found) := by
  cases pending with
  | nil => rfl
  | cons scan pending => rw [scanFrom, if_pos h]

theorem find_of_found {name : String} {m : LocatedModule} (h : found.get? name = some m)
    (s : Surroundings) (pending : List Scan) :
    (active pending found).find s name = (.ok (some m), active pending found) := by
  rw [find, advance, scanFrom_of_enough (by rw [h]; rfl)]
  simp [Except.map, h]

theorem find_of_missing {name : String} (h : found.get? name = none) (s : Surroundings) :
    (active [] found).find s name = (.ok none, active [] found) := by
  simp [find, advance, scanFrom, Except.map, h]

/-- Where reading stops early, reading more places would have stopped as well. -/
theorem scanFrom_append_of_ok
    (h : scanFrom s enough found pending = (.ok found', active pending' found'))
    (later : List Scan) :
    scanFrom s enough found (pending ++ later) = scanFrom s enough found' (pending' ++ later) := by
  induction pending generalizing found with
  | nil =>
      obtain ⟨rfl, rfl, -⟩ : found = found' ∧ pending' = [] ∧ found = found' := by
        simpa [scanFrom] using h
      rfl
  | cons scan pending ih =>
      rw [scanFrom] at h
      by_cases henough : enough found = true
      · obtain ⟨rfl, rfl, -⟩ : found = found' ∧ scan :: pending = pending' ∧ found = found' := by
          simpa [henough] using h
        rfl
      · rw [if_neg henough] at h
        rw [List.cons_append, scanFrom, if_neg henough]
        cases hrun : scan.run s with
        | error e => simp [hrun] at h
        | ok modules =>
            simp only [hrun] at h
            exact ih h

theorem scanFrom_append_of_error {e : SearchError} {next : Scanner}
    (h : scanFrom s enough found pending = (.error e, next)) (later : List Scan) :
    scanFrom s enough found (pending ++ later) = (.error e, next) := by
  induction pending generalizing found with
  | nil => simp [scanFrom] at h
  | cons scan pending ih =>
      rw [scanFrom] at h
      rw [List.cons_append, scanFrom]
      by_cases henough : enough found = true
      · simp [henough] at h
      · rw [if_neg henough] at h ⊢
        cases hrun : scan.run s with
        | error e' => simpa [hrun] using h
        | ok modules =>
            simp only [hrun] at h ⊢
            exact ih h

/-- All that looking up a name can do if more places follow. -/
theorem find_append_cases (s : Surroundings) (name : String) (pending later : List Scan)
    (found : Modules) :
    (∃ e, (active pending found).find s name = (.error e, failed) ∧
      (active (pending ++ later) found).find s name = (.error e, failed)) ∨
    (∃ m pending' found',
      (active pending found).find s name = (.ok (some m), active pending' found') ∧
      (active (pending ++ later) found).find s name =
        (.ok (some m), active (pending' ++ later) found')) ∨
    (∃ found', found'.get? name = none ∧
      (active pending found).find s name = (.ok none, active [] found') ∧
      (active (pending ++ later) found).find s name = (active later found').find s name) := by
  rcases hscan : scanFrom s (fun found => (found.get? name).isSome) found pending
    with ⟨answer, next⟩
  simp only [find, advance]
  rw [hscan]
  cases answer with
  | error e =>
      obtain ⟨rfl, -, -⟩ := scanFrom_error hscan
      rw [scanFrom_append_of_error hscan later]
      exact .inl ⟨e, rfl, rfl⟩
  | ok found' =>
      obtain ⟨pending', rfl, hstop, -⟩ := scanFrom_ok hscan
      rw [scanFrom_append_of_ok hscan later]
      -- Either the name was found on the way, or the first places are all read.
      refine .inr ?_
      cases hget : found'.get? name with
      | some m =>
          refine .inl ⟨m, pending', found', by simp [Except.map, hget], ?_⟩
          exact find_of_found hget s (pending' ++ later)
      | none =>
          obtain rfl : pending' = [] := hstop.resolve_right (by simp [hget])
          exact .inr ⟨found', hget, by simp [Except.map, hget], rfl⟩

theorem complete_append_cases (s : Surroundings) (pending later : List Scan) (found : Modules) :
    (∃ e, (active pending found).complete s = (.error e, failed) ∧
      (active (pending ++ later) found).complete s = (.error e, failed)) ∨
    (∃ found', (active pending found).complete s = (.ok found', active [] found') ∧
      (active (pending ++ later) found).complete s = (active later found').complete s) := by
  rcases hscan : scanFrom s (fun _ => false) found pending with ⟨answer, next⟩
  simp only [complete, advance]
  rw [hscan]
  cases answer with
  | error e =>
      obtain ⟨rfl, -, -⟩ := scanFrom_error hscan
      exact .inl ⟨e, rfl, scanFrom_append_of_error hscan later⟩
  | ok found' =>
      obtain ⟨pending', rfl, hstop, -⟩ := scanFrom_ok hscan
      obtain rfl : pending' = [] := hstop.resolve_right (by simp)
      exact .inr ⟨found', rfl, scanFrom_append_of_ok hscan later⟩

/-- The scanner if these modules had been found before. -/
def precededBy (first : Modules) : Scanner → Scanner
  | active pending found => active pending (first.union found)
  | failed => failed

theorem scanFrom_union (s : Surroundings) (enough : Modules → Bool) (first found : Modules)
    (pending : List Scan) :
    scanFrom s enough (first.union found) pending =
      Prod.map (Except.map first.union) (precededBy first)
        (scanFrom s (fun found => enough (first.union found)) found pending) := by
  induction pending generalizing found with
  | nil => rfl
  | cons scan pending ih =>
      rw [scanFrom, scanFrom]
      by_cases henough : enough (first.union found) = true
      · simp [henough, Except.map, precededBy]
      · rw [if_neg henough, if_neg henough]
        cases scan.run s with
        | error e => rfl
        | ok modules =>
            simp only
            rw [Modules.union_addAllNew, ih]

/-- A name that was not found before is looked for as if nothing had been found before. -/
theorem find_union {first : Modules} {name : String} (h : first.get? name = none)
    (s : Surroundings) (found : Modules) (pending : List Scan) :
    (active pending (first.union found)).find s name =
      (((active pending found).find s name).1,
        precededBy first ((active pending found).find s name).2) := by
  have hget : ∀ found : Modules, (first.union found).get? name = found.get? name := by
    intro found
    rw [Modules.get?_union, h, Option.none_or]
  simp only [find, advance, scanFrom_union, hget]
  refine Prod.ext ?_ rfl
  rcases scanFrom s _ found pending with ⟨answer, next⟩
  cases answer with
  | error e => rfl
  | ok found' => exact congrArg Except.ok (hget found')

theorem complete_union (s : Surroundings) (first found : Modules) (pending : List Scan) :
    (active pending (first.union found)).complete s =
      (((active pending found).complete s).1.map first.union,
        precededBy first ((active pending found).complete s).2) :=
  scanFrom_union s (fun _ => false) first found pending

end Scanner

namespace Chain

open Scanner (active precededBy)

variable {s : Surroundings} {name : String} {chain : List Scanner} {scanner : Scanner}

/-- One scanner stands for two of which the second waits for the first. -/
inductive Fused : List Scanner → Scanner → Prop
  | first (pending later : List Scan) (found : Modules) :
      Fused [active pending found, active later .empty] (active (pending ++ later) found)
  | second (pending : List Scan) (first found : Modules) :
      Fused [active [] first, active pending found] (active pending (first.union found))

/-- The answer is the same, and unless it is an error the scanners stay fused. -/
def Alike {α : Type} (r : Except SearchError α × List Scanner)
    (r' : Except SearchError α × Scanner) : Prop :=
  r.1 = r'.1 ∧ ∀ a, r.1 = .ok a → Fused r.2 r'.2

/-- The first scanner has nothing left to read, so the second is asked for what is new. -/
theorem alike_find_second (s : Surroundings) (name : String) (pending : List Scan)
    (first found : Modules) :
    Alike (find s name [active [] first, active pending found])
      ((active pending (first.union found)).find s name) := by
  cases hget : first.get? name with
  | some m =>
      have hunion : (first.union found).get? name = some m := by
        rw [Modules.get?_union, hget, Option.some_or]
      rw [find, Scanner.find_of_found hget, Scanner.find_of_found hunion]
      exact ⟨rfl, fun _ _ => .second pending first found⟩
  | none =>
      rw [find, Scanner.find_of_missing hget, Scanner.find_union hget]
      simp only [find_singleton]
      refine ⟨rfl, ?_⟩
      intro a hok
      rcases (active pending found).find_cases s name with ⟨e, hfind, -⟩ |
        ⟨found', hfind, -, -⟩ | ⟨m, pending', found', hfind, -, -⟩
      · simp [hfind] at hok
      · rw [hfind]
        exact .second [] first found'
      · rw [hfind]
        exact .second pending' first found'

theorem alike_complete_second (s : Surroundings) (pending : List Scan) (first found : Modules) :
    Alike (complete s [active [] first, active pending found])
      ((active pending (first.union found)).complete s) := by
  have hfirst : (active [] first).complete s = (.ok first, active [] first) := rfl
  rw [complete, hfirst, Scanner.complete_union]
  simp only [complete_singleton]
  refine ⟨rfl, ?_⟩
  intro a hok
  rcases (active pending found).complete_cases s with ⟨e, hcomplete, -⟩ |
    ⟨found', hcomplete, -⟩
  · simp [hcomplete, Except.map] at hok
  · rw [hcomplete]
    exact .second [] first found'

theorem alike_find (h : Fused chain scanner) (s : Surroundings) (name : String) :
    Alike (find s name chain) (scanner.find s name) := by
  cases h with
  | second pending first found => exact alike_find_second s name pending first found
  | first pending later found =>
      rcases Scanner.find_append_cases s name pending later found with ⟨e, hfirst, hlonger⟩ |
        ⟨m, pending', found', hfirst, hlonger⟩ | ⟨found', hget, hfirst, hlonger⟩
      · rw [find, hfirst, hlonger]
        exact ⟨rfl, by simp⟩
      · rw [find, hfirst, hlonger]
        exact ⟨rfl, fun _ _ => .first pending' later found'⟩
      · -- The first scanner is done, so asking it once more changes nothing.
        have hchain : find s name [active pending found, active later .empty] =
            find s name [active [] found', active later .empty] := by
          simp only [find, hfirst, Scanner.find_of_missing hget]
        rw [hchain, hlonger, ← found'.union_empty]
        exact alike_find_second s name later (found'.union .empty) .empty

theorem alike_complete (h : Fused chain scanner) (s : Surroundings) :
    Alike (complete s chain) (scanner.complete s) := by
  cases h with
  | second pending first found => exact alike_complete_second s pending first found
  | first pending later found =>
      rcases Scanner.complete_append_cases s pending later found with ⟨e, hfirst, hlonger⟩ |
        ⟨found', hfirst, hlonger⟩
      · rw [complete, hfirst, hlonger]
        exact ⟨rfl, by simp⟩
      · have hchain : complete s [active pending found, active later .empty] =
            complete s [active [] found', active later .empty] := by
          rw [complete, hfirst]
          rfl
        rw [hchain, hlonger, ← found'.union_empty]
        exact alike_complete_second s later (found'.union .empty) .empty

theorem alike_ask (h : Fused chain scanner) (s : Surroundings) (q : Query) :
    (ask s q chain).1 = (ask s q [scanner]).1 ∧
      ∀ answer, (ask s q chain).1 = .ok answer →
        ∃ next, (ask s q [scanner]).2 = [next] ∧ Fused (ask s q chain).2 next := by
  cases q with
  | find name =>
      obtain ⟨hanswer, hfused⟩ := alike_find h s name
      simp only [ask, find_singleton]
      refine ⟨congrArg (Except.map Answer.one) hanswer, ?_⟩
      intro answer hok
      obtain ⟨m, hfind, -⟩ := map_eq_ok_iff.mp hok
      exact ⟨_, rfl, hfused m hfind⟩
  | findAll =>
      obtain ⟨hanswer, hfused⟩ := alike_complete h s
      simp only [ask, complete_singleton]
      refine ⟨congrArg (Except.map fun found => Answer.all found.toList) hanswer, ?_⟩
      intro answer hok
      obtain ⟨found, hcomplete, -⟩ := map_eq_ok_iff.mp hok
      exact ⟨_, rfl, hfused found hcomplete⟩

/-- Fused scanners answer alike until one of them fails. -/
theorem throughError_of_fused (h : Fused chain scanner) (run : List Step) :
    throughError (answersOf ask chain run) = throughError (answersOf ask [scanner] run) := by
  refine throughError_eq_of_simulation
    (fun chain chain' => ∃ scanner, chain' = [scanner] ∧ Fused chain scanner) ?_ ?_
    ⟨scanner, rfl, h⟩ run
  · rintro s q chain _ ⟨scanner, rfl, h⟩
    exact (alike_ask h s q).1
  · rintro s q chain _ answer ⟨scanner, rfl, h⟩ hok
    exact (alike_ask h s q).2 answer hok

end Chain

namespace Catalog

/-- Two module paths that are joined answer like the path with the entries of both, up to and
including the first error. -/
theorem throughError_answers_ofEntries (entries later : List Path) (run : List Step) :
    throughError (((ofEntries entries).append (ofEntries later)).answers run) =
      throughError ((ofEntries (entries ++ later)).answers run) := by
  rw [answers_eq (.append (.ofEntries entries) (.ofEntries later)), answers_eq (.ofEntries _)]
  have hfused := Chain.Fused.first (entries.map .entry) (later.map .entry) .empty
  rw [← List.map_append] at hfused
  exact Chain.throughError_of_fused hfused run

end Catalog

end ModuleSearch
