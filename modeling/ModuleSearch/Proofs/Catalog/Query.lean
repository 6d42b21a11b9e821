import Mathlib.Control.Monad.Basic
import ModuleSearch.Installation
import ModuleSearch.Storage.Snapshot

/-!
# Runs of queries

A run asks one query after the other. Each query has surroundings of its own, so between two of
them the files may have changed in any way. `answersOf_eq_of_simulation` compares the runs of two
ways to keep a catalog, and `throughError_eq_of_simulation` compares them up to the first error.
-/

namespace ModuleSearch

inductive Query where
  | find (name : String)
  | findAll
  deriving DecidableEq, Repr

inductive Answer where
  | one (m : Option LocatedModule)
  | all (modules : List LocatedModule)
  deriving DecidableEq, Repr

structure Step where
  surroundings : Surroundings
  query : Query

abbrev Reply := Except SearchError Answer

/-- The answers to queries that are asked one after the other. -/
def answersOf {σ : Type} (ask : Surroundings → Query → σ → Reply × σ) : σ → List Step → List Reply
  | _, [] => []
  | state, step :: run =>
    let (reply, state) := ask step.surroundings step.query state
    reply :: answersOf ask state run

/-- States that correspond give the same answers, if they do so for one query and then
correspond again. -/
theorem answersOf_eq_of_simulation {σ τ : Type}
    {ask : Surroundings → Query → σ → Reply × σ} {ask' : Surroundings → Query → τ → Reply × τ}
    (Corresponds : σ → τ → Prop)
    (hstep : ∀ s q a b, Corresponds a b →
      (ask s q a).1 = (ask' s q b).1 ∧ Corresponds (ask s q a).2 (ask' s q b).2)
    {a : σ} {b : τ} (h : Corresponds a b) (run : List Step) :
    answersOf ask a run = answersOf ask' b run := by
  induction run generalizing a b with
  | nil => rfl
  | cons step run ih =>
      obtain ⟨hreply, hnext⟩ := hstep step.surroundings step.query a b h
      simp only [answersOf]
      rw [hreply, ih hnext]

/-- A state that no query changes gives the same reply to a query whenever it is asked. -/
theorem answersOf_eq_map {σ : Type} {ask : Surroundings → Query → σ → Reply × σ} {state : σ}
    {reply : Query → Reply} (h : ∀ s q, ask s q state = (reply q, state)) (run : List Step) :
    answersOf ask state run = run.map fun step => reply step.query := by
  induction run with
  | nil => rfl
  | cons step rest ih =>
      rw [answersOf, h, List.map_cons]
      exact congrArg _ ih

/-- The replies up to the first error, which is the last of them. -/
def throughError : List Reply → List Reply
  | [] => []
  | .ok answer :: rest => .ok answer :: throughError rest
  | .error e :: _ => [.error e]

/-- States that correspond give the same answers until one of them is an error, if they do so for
one query and correspond again unless it fails. -/
theorem throughError_eq_of_simulation {σ τ : Type}
    {ask : Surroundings → Query → σ → Reply × σ} {ask' : Surroundings → Query → τ → Reply × τ}
    (Corresponds : σ → τ → Prop)
    (hreply : ∀ s q a b, Corresponds a b → (ask s q a).1 = (ask' s q b).1)
    (hnext : ∀ s q a b answer, Corresponds a b → (ask s q a).1 = .ok answer →
      Corresponds (ask s q a).2 (ask' s q b).2)
    {a : σ} {b : τ} (h : Corresponds a b) (run : List Step) :
    throughError (answersOf ask a run) = throughError (answersOf ask' b run) := by
  induction run generalizing a b with
  | nil => rfl
  | cons step run ih =>
      have heq := hreply step.surroundings step.query a b h
      simp only [answersOf]
      rw [← heq]
      cases hanswer : (ask step.surroundings step.query a).1 with
      | error e => rfl
      | ok answer =>
          have hrest := ih (hnext step.surroundings step.query a b answer h hanswer)
          exact congrArg (Except.ok answer :: ·) hrest

namespace Catalog

def ask (s : Surroundings) : Query → Catalog → Reply × Catalog
  | .find name, c =>
    let (answer, c) := c.find s name
    (answer.map .one, c)
  | .findAll, c =>
    let (answer, c) := c.findAll s
    (answer.map .all, c)

def answers (c : Catalog) (run : List Step) : List Reply := answersOf ask c run

/-- Catalogs as they are made, joined and queried. -/
inductive Reachable : Catalog → Prop
  | empty : Reachable .empty
  | ofEntries (entries : List Path) : Reachable (.ofEntries entries)
  | ofImage (path : Path) : Reachable (.ofImage path)
  | installed {storage : Storage} {permits : Path → Bool} {home : Path} {c : Catalog}
      (h : Installation.catalog storage permits home = .ok c) : Reachable c
  | append {first second : Catalog} (hfirst : Reachable first) (hsecond : Reachable second) :
      Reachable (first.append second)
  | ask {c : Catalog} (s : Surroundings) (q : Query) (h : Reachable c) : Reachable (c.ask s q).2

end Catalog

namespace Surroundings

def ofList (sights : List (String × Sight)) : Surroundings :=
  ⟨Snapshot.storage (.ofList sights), Descriptor.decode⟩

/-- A module `m` in the directory `/m`, and a file that cannot be read. -/
def sample : Surroundings :=
  .ofList [("/m", .directory (some ["module-info.json"])),
    ("/m/module-info.json", .file (some "\x7b\"name\":\"m\"\x7d".toUTF8)),
    ("/broken", .file none)]

def bare : Surroundings := .ofList []

end Surroundings

/-- The files are gone when the second and the third query are asked. -/
def sampleRun : List Step :=
  [⟨.sample, .find "m"⟩, ⟨.bare, .find "m"⟩, ⟨.bare, .find "n"⟩, ⟨.sample, .findAll⟩]

/-- The module that `Surroundings.sample` holds. -/
def LocatedModule.sample : LocatedModule :=
  ⟨⟨"m", none, NameMap.empty.insert "java.base" (Modifiers.none.add .mandated), .empty, .empty,
    none, false⟩, .exploded ⟨"/m"⟩⟩

namespace Catalog

/-- In `Surroundings.sample` only the second part fails. -/
def sample : Catalog := (ofEntries [⟨"/m"⟩]).append (ofEntries [⟨"/broken"⟩])

theorem reachable_sample : sample.Reachable := .append (.ofEntries _) (.ofEntries _)

end Catalog

end ModuleSearch
