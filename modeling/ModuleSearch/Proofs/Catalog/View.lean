import Mathlib.Data.List.Forall2
import ModuleSearch.Proofs.Catalog.Parts

/-!
# The view of a catalog

Whatever happens to the files between the queries of a run, all its answers are read off one view
of the modules: `exists_view`. An answer about a name is pinned by the scanners that gave it
(`Chain.Pinned`), and a query can only move scanners on, which loses no pinned answer unless a
scanner fails; then nothing is answered about that name any more.
-/

namespace ModuleSearch

/-- An answer is the one that a view gives. An error says nothing. -/
def Agrees (view : String → Option LocatedModule) : Query → Reply → Prop
  | .find name, .ok (.one m) => m = view name
  | .findAll, .ok (.all modules) => IsListing view modules
  | _, .error _ => True
  | _, .ok _ => False

def AgreesAt (name : String) (answer : Option LocatedModule) : Query → Reply → Prop
  | .find other, .ok (.one m) => other = name → m = answer
  | .findAll, .ok (.all modules) => ∀ m, m.name = name → (m ∈ modules ↔ answer = some m)
  | _, .error _ => True
  | _, .ok _ => False

namespace Scanner

/-- What a query can do to a scanner as far as later answers are concerned. -/
inductive Moved : Scanner → Scanner → Prop
  | refl (scanner : Scanner) : Moved scanner scanner
  | failed (scanner : Scanner) : Moved scanner .failed
  | further {pending pending' : List Scan} {found found' : Modules} (hpending : pending ≠ [])
      (hfound : found.Within found') : Moved (.active pending found) (.active pending' found')

theorem moved_advance (s : Surroundings) (enough : Modules → Bool) (scanner : Scanner) :
    Moved scanner (scanner.advance s enough).2 := by
  rcases h : scanner.advance s enough with ⟨answer, next⟩
  cases answer with
  | error e =>
      obtain ⟨rfl, -, -⟩ := advance_error h
      exact .failed scanner
  | ok found' =>
      obtain ⟨pending, found, pending', rfl, rfl, -, -, hwithin, hdone⟩ := advance_ok h
      by_cases hpending : pending = []
      · rw [hdone hpending]
        exact .refl _
      · exact .further hpending hwithin

theorem moved_find (s : Surroundings) (name : String) (scanner : Scanner) :
    Moved scanner (scanner.find s name).2 := moved_advance ..

theorem moved_complete (s : Surroundings) (scanner : Scanner) :
    Moved scanner (scanner.complete s).2 := moved_advance ..

end Scanner

namespace Chain

open Scanner (Moved)

variable {s : Surroundings} {name : String} {answer : Option LocatedModule}
  {chain next : List Scanner} {v : Survey}

theorem forall₂_moved_refl (chain : List Scanner) : List.Forall₂ Moved chain chain :=
  List.forall₂_same.mpr fun scanner _ => .refl scanner

theorem forall₂_moved_find (s : Surroundings) (name : String) (chain : List Scanner) :
    List.Forall₂ Moved chain (find s name chain).2 := by
  induction chain with
  | nil => exact .nil
  | cons scanner rest ih =>
      have hmoved := scanner.moved_find s name
      rw [find]
      rcases hfind : scanner.find s name with ⟨answer, scanner'⟩
      rw [hfind] at hmoved
      cases answer with
      | error e => exact .cons hmoved (forall₂_moved_refl rest)
      | ok m =>
          cases m with
          | some m => exact .cons hmoved (forall₂_moved_refl rest)
          | none => exact .cons hmoved ih

theorem forall₂_moved_complete (s : Surroundings) (chain : List Scanner) :
    List.Forall₂ Moved chain (complete s chain).2 := by
  induction chain with
  | nil => exact .nil
  | cons scanner rest ih =>
      have hmoved := scanner.moved_complete s
      rw [complete]
      rcases hcomplete : scanner.complete s with ⟨answer, scanner'⟩
      rw [hcomplete] at hmoved
      cases answer with
      | error e => exact .cons hmoved (forall₂_moved_refl rest)
      | ok found => exact .cons hmoved ih

theorem forall₂_moved_ask (s : Surroundings) (q : Query) (chain : List Scanner) :
    List.Forall₂ Moved chain (ask s q chain).2 := by
  cases q with
  | find name => exact forall₂_moved_find s name chain
  | findAll => exact forall₂_moved_complete s chain

/-- Nothing but this answer, or an error, can be given about a name. -/
inductive Pinned (name : String) (answer : Option LocatedModule) : List Scanner → Prop
  | nil (h : answer = none) : Pinned name answer []
  | failed (rest : List Scanner) : Pinned name answer (.failed :: rest)
  | found {pending : List Scan} {found : Modules} {rest : List Scanner} {m : LocatedModule}
      (h : found.get? name = some m) (hanswer : answer = some m) :
      Pinned name answer (.active pending found :: rest)
  | missing {found : Modules} {rest : List Scanner} (h : found.get? name = none)
      (hrest : Pinned name answer rest) : Pinned name answer (.active [] found :: rest)

namespace Pinned

theorem moved (h : Pinned name answer chain) (hmoved : List.Forall₂ Moved chain next) :
    Pinned name answer next := by
  induction h generalizing next with
  | nil h =>
      cases hmoved
      exact .nil h
  | failed rest =>
      cases hmoved with
      | cons hhead _ => cases hhead <;> exact .failed _
  | found h hanswer =>
      cases hmoved with
      | cons hhead _ =>
          cases hhead with
          | refl => exact .found h hanswer
          | failed => exact .failed _
          | further _ hwithin => exact .found (hwithin _ _ h) hanswer
  | missing h _ ih =>
      cases hmoved with
      | cons hhead hrest =>
          cases hhead with
          | refl => exact .missing h (ih hrest)
          | failed => exact .failed _
          -- nothing is pending, so this scanner stays as it is
          | further hpending _ => exact absurd rfl hpending

theorem eq_of_lookup (h : Pinned name answer chain) {b : Option LocatedModule}
    (hlookup : (survey s chain).lookup name = .ok b) : b = answer := by
  induction h with
  | nil h =>
      obtain rfl : none = b := by simpa [survey, Survey.nothing, Survey.lookup] using hlookup
      exact h.symm
  | failed rest => simp [survey, Scanner.survey, Survey.followedBy, Survey.unusable,
      Survey.lookup] at hlookup
  | @found pending found rest m h hanswer =>
      have hwithin := Scanner.within_surveyFrom s found pending name m h
      rw [survey, Survey.lookup_followedBy, Scanner.survey,
        Survey.lookup_of_found hwithin] at hlookup
      rw [hanswer]
      exact (Except.ok.inj hlookup).symm
  | @missing found rest h hrest ih =>
      rw [survey, Survey.lookup_followedBy, Scanner.survey, Scanner.surveyFrom,
        Survey.lookup_of_success rfl, h] at hlookup
      exact ih hlookup

theorem of_find {b : Option LocatedModule} (hlookup : (find s name chain).1 = .ok b) :
    Pinned name b (find s name chain).2 := by
  induction chain with
  | nil =>
      obtain rfl : none = b := by simpa [find] using hlookup
      exact .nil rfl
  | cons scanner rest ih =>
      rw [find] at hlookup ⊢
      rcases scanner.find_cases s name with ⟨e, hfind, -⟩ | ⟨found, hfind, hget, -⟩ |
        ⟨m, pending, found, hfind, hget, -⟩
      · simp [hfind] at hlookup
      · simp only [hfind] at hlookup ⊢
        exact .missing hget (ih hlookup)
      · simp only [hfind] at hlookup ⊢
        exact .found hget (Except.ok.inj hlookup).symm

theorem of_settled (h : Settled chain v) (hv : v.failure = none) :
    Pinned name (v.modules.get? name) chain := by
  induction h with
  | nil => exact .nil rfl
  | failed rest => exact .failed rest
  | @cons found rest v h ih =>
      rw [Modules.get?_union]
      cases hget : found.get? name with
      | some m => exact .found hget rfl
      | none => exact .missing hget (ih hv)

end Pinned

theorem agreesAt_of_lookup (hlookup : ∀ b, v.lookup name = .ok b → b = answer) (q : Query) :
    AgreesAt name answer q (v.answer q) := by
  cases q with
  | find other =>
      rw [Survey.answer]
      cases hother : v.lookup other with
      | error e => trivial
      | ok m =>
          intro hname
          exact hlookup m (hname ▸ hother)
  | findAll =>
      rw [Survey.answer, Survey.all]
      cases hfailure : v.failure with
      | some e => trivial
      | none =>
          intro m hname
          have hget := hlookup _ (Survey.lookup_of_success hfailure name)
          rw [Modules.mem_toList, hname, hget]

theorem agreesAt_of_pinned (h : Pinned name answer chain) (run : List Step) :
    List.Forall₂ (fun step reply => AgreesAt name answer step.query reply) run
      (answersOf ask chain run) := by
  induction run generalizing chain with
  | nil => exact .nil
  | cons step rest ih =>
      have hreply : AgreesAt name answer step.query
          (ask step.surroundings step.query chain).1 := by
        rw [ask_answer]
        exact agreesAt_of_lookup (fun b => h.eq_of_lookup) step.query
      exact .cons hreply (ih (h.moved (forall₂_moved_ask step.surroundings step.query chain)))

theorem agreesAt_error (name : String) (answer : Option LocatedModule) (q : Query)
    (e : SearchError) : AgreesAt name answer q (.error e) := by
  cases q <;> trivial

/-- A query pins its answer about a name, or says nothing about the name. -/
theorem pinned_or_silent (s : Surroundings) (name : String) (q : Query) (chain : List Scanner) :
    (∃ b, (survey s chain).lookup name = .ok b ∧ Pinned name b (ask s q chain).2) ∨
      ∀ answer, AgreesAt name answer q (ask s q chain).1 := by
  cases hreply : (ask s q chain).1 with
  | error e => exact .inr fun answer => agreesAt_error name answer q e
  | ok reply =>
      cases q with
      | find other =>
          obtain ⟨m, hfind, rfl⟩ := map_eq_ok_iff.mp hreply
          by_cases hname : other = name
          · subst hname
            have hlookup := (find_answer s other chain).symm.trans hfind
            exact .inl ⟨m, hlookup, .of_find hfind⟩
          · exact .inr fun answer h => absurd h hname
      | findAll =>
          obtain ⟨found, hcomplete, rfl⟩ := map_eq_ok_iff.mp hreply
          have hall := (complete_answer s chain).symm.trans hcomplete
          have hsettled : Settled (complete s chain).2 ⟨found, none⟩ :=
            settled_of_complete (Prod.ext hcomplete rfl)
          have hlookup : (survey s chain).lookup name = .ok (found.get? name) := by
            obtain ⟨hfailure, rfl⟩ := Survey.all_eq_ok_iff.mp hall
            exact Survey.lookup_of_success hfailure name
          exact .inl ⟨_, hlookup, .of_settled hsettled rfl⟩

theorem exists_agreesAt (name : String) (chain : List Scanner) (run : List Step) :
    ∃ answer : Option LocatedModule, (∀ m, answer = some m → m.name = name) ∧
      List.Forall₂ (fun step reply => AgreesAt name answer step.query reply) run
        (answersOf ask chain run) := by
  induction run generalizing chain with
  | nil => exact ⟨none, by simp, .nil⟩
  | cons step rest ih =>
      rcases pinned_or_silent step.surroundings name step.query chain with
        ⟨b, hlookup, hpinned⟩ | hsilent
      · have hreply : AgreesAt name b step.query
            (ask step.surroundings step.query chain).1 := by
          rw [ask_answer]
          refine agreesAt_of_lookup ?_ step.query
          intro b' hlookup'
          exact Except.ok.inj (hlookup'.symm.trans hlookup)
        refine ⟨b, ?_, .cons hreply (agreesAt_of_pinned hpinned rest)⟩
        rintro m rfl
        exact Survey.name_of_lookup hlookup
      · obtain ⟨answer, hname, hrest⟩ := ih (ask step.surroundings step.query chain).2
        exact ⟨answer, hname, .cons (hsilent answer) hrest⟩

end Chain

theorem agrees_of_agreesAt {view : String → Option LocatedModule} {v : Survey} {q : Query}
    (h : ∀ name, AgreesAt name (view name) q (v.answer q)) : Agrees view q (v.answer q) := by
  cases q with
  | find name =>
      have hname := h name
      rw [Survey.answer] at hname ⊢
      cases hlookup : v.lookup name with
      | error e => trivial
      | ok m =>
          rw [hlookup] at hname
          exact hname rfl
  | findAll =>
      rw [Survey.answer, Survey.all] at h ⊢
      cases hfailure : v.failure with
      | some e => trivial
      | none =>
          rw [hfailure] at h
          exact ⟨v.modules.toList_ascending_utf8, fun m => h m.name m rfl⟩

theorem forall₂_agrees {view : String → Option LocatedModule} {chain : List Scanner}
    {run : List Step}
    (h : ∀ name, List.Forall₂ (fun step reply => AgreesAt name (view name) step.query reply) run
      (answersOf Chain.ask chain run)) :
    List.Forall₂ (fun step reply => Agrees view step.query reply) run
      (answersOf Chain.ask chain run) := by
  induction run generalizing chain with
  | nil => exact .nil
  | cons step rest ih =>
      rw [answersOf, List.forall₂_cons]
      constructor
      · have hreply : ∀ name, AgreesAt name (view name) step.query
            (Chain.ask step.surroundings step.query chain).1 := by
          intro name
          exact (List.forall₂_cons.mp (h name)).1
        rw [Chain.ask_answer] at hreply ⊢
        exact agrees_of_agreesAt hreply
      · refine ih ?_
        intro name
        exact (List.forall₂_cons.mp (h name)).2

/-- All answers of a run belong to one view, in which a module stands at its own name. -/
theorem exists_view {c : Catalog} (hc : c.Reachable) (run : List Step) :
    ∃ view : String → Option LocatedModule, (∀ name m, view name = some m → m.name = name) ∧
      List.Forall₂ (fun step reply => Agrees view step.query reply) run (c.answers run) := by
  rw [Catalog.answers_eq hc]
  choose view hname hview using fun name => Chain.exists_agreesAt name c.scanners run
  exact ⟨view, hname, forall₂_agrees hview⟩

/-- What was found stays in the view when all files are gone. -/
theorem exists_view_sample :
    Catalog.sample.answers sampleRun =
      [.ok (.one (some .sample)), .ok (.one (some .sample)), .ok (.one none),
        .ok (.all [.sample])] ∧
    ∃ view : String → Option LocatedModule, (∀ name m, view name = some m → m.name = name) ∧
      List.Forall₂ (fun step reply => Agrees view step.query reply) sampleRun
        (Catalog.sample.answers sampleRun) :=
  ⟨by decide +kernel, exists_view Catalog.reachable_sample sampleRun⟩

end ModuleSearch
