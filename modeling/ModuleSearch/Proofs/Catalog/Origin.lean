import ModuleSearch.Proofs.Catalog.Parts

/-!
# Where answers come from

While the files do not change, every module in an answer was read by a scan of these files, in
whatever way catalogs were joined and queried before: `forall_modules_of_ask`.
-/

namespace ModuleSearch

def Answer.modules : Answer → List LocatedModule
  | one m => m.toList
  | all modules => modules

variable {s : Surroundings} {P : LocatedModule → Prop}

/-- All modules that can be read have the property. -/
def Surroundings.ScansOnly (s : Surroundings) (P : LocatedModule → Prop) : Prop :=
  ∀ (scan : Scan) modules, scan.run s = .ok modules → ∀ m ∈ modules, P m

def Modules.AllHave (found : Modules) (P : LocatedModule → Prop) : Prop :=
  ∀ name m, found.get? name = some m → P m

theorem Modules.allHave_empty : Modules.empty.AllHave P := by
  intro name m h
  cases h

theorem Modules.AllHave.addAllNew {found : Modules} {modules : List LocatedModule}
    (hfound : found.AllHave P) (h : ∀ m ∈ modules, P m) :
    (found.addAllNew modules).AllHave P := by
  intro name m hget
  rw [Modules.get?_addAllNew, Option.or_eq_some_iff] at hget
  obtain hget | ⟨-, hget⟩ := hget
  · exact hfound name m hget
  · exact h m (List.mem_of_find?_eq_some hget)

theorem Modules.AllHave.union {first second : Modules} (hfirst : first.AllHave P)
    (hsecond : second.AllHave P) : (first.union second).AllHave P :=
  hfirst.addAllNew fun m hm => hsecond m.name m (Modules.mem_toList.mp hm)

/-- What a scanner has found has the property. -/
def Scanner.Holds (P : LocatedModule → Prop) : Scanner → Prop
  | active _ found => found.AllHave P
  | failed => True

namespace Scanner

theorem holds_scanFrom {enough : Modules → Bool} {found : Modules} {pending : List Scan}
    {answer : Except SearchError Modules} {next : Scanner} (hs : s.ScansOnly P)
    (h : found.AllHave P) (hscan : scanFrom s enough found pending = (answer, next)) :
    (∀ found', answer = .ok found' → found'.AllHave P) ∧ next.Holds P := by
  induction pending generalizing found with
  | nil =>
      obtain ⟨rfl, rfl⟩ := Prod.mk.inj hscan
      exact ⟨fun found' hfound' => Except.ok.inj hfound' ▸ h, h⟩
  | cons scan pending ih =>
      rw [scanFrom] at hscan
      split at hscan
      · obtain ⟨rfl, rfl⟩ := Prod.mk.inj hscan
        exact ⟨fun found' hfound' => Except.ok.inj hfound' ▸ h, h⟩
      · cases hrun : scan.run s with
        | error e =>
            rw [hrun] at hscan
            obtain ⟨rfl, rfl⟩ := Prod.mk.inj hscan
            exact ⟨by simp, trivial⟩
        | ok modules =>
            rw [hrun] at hscan
            exact ih (h.addAllNew (hs scan modules hrun)) hscan

theorem holds_advance {enough : Modules → Bool} {scanner next : Scanner}
    {answer : Except SearchError Modules} (hs : s.ScansOnly P) (h : scanner.Holds P)
    (hadvance : scanner.advance s enough = (answer, next)) :
    (∀ found, answer = .ok found → found.AllHave P) ∧ next.Holds P := by
  cases scanner with
  | active pending found => exact holds_scanFrom hs h hadvance
  | failed =>
      obtain ⟨rfl, rfl⟩ := Prod.mk.inj hadvance
      exact ⟨by simp, trivial⟩

end Scanner

namespace Chain

def Holds (P : LocatedModule → Prop) (chain : List Scanner) : Prop :=
  ∀ scanner ∈ chain, scanner.Holds P

theorem holds_find {name : String} {chain : List Scanner} (hs : s.ScansOnly P)
    (h : Holds P chain) :
    (∀ m, (find s name chain).1 = .ok (some m) → P m) ∧ Holds P (find s name chain).2 := by
  induction chain with
  | nil => exact ⟨by simp [find], h⟩
  | cons scanner rest ih =>
      obtain ⟨hscanner, hrest⟩ := List.forall_mem_cons.mp h
      rcases hadvance : scanner.advance s fun found => (found.get? name).isSome
        with ⟨answer, scanner'⟩
      obtain ⟨hfound, hnext⟩ := Scanner.holds_advance hs hscanner hadvance
      rw [find, Scanner.find, hadvance]
      cases answer with
      | error e => exact ⟨by simp [Except.map], List.forall_mem_cons.mpr ⟨hnext, hrest⟩⟩
      | ok found =>
          have hfound := hfound found rfl
          cases hget : found.get? name with
          | some m =>
              simp only [Except.map, hget]
              refine ⟨fun m' hm' => ?_, List.forall_mem_cons.mpr ⟨hnext, hrest⟩⟩
              obtain rfl : m = m' := by simpa using hm'
              exact hfound name m hget
          | none =>
              simp only [Except.map, hget]
              exact ⟨(ih hrest).1, List.forall_mem_cons.mpr ⟨hnext, (ih hrest).2⟩⟩

theorem holds_complete {chain : List Scanner} (hs : s.ScansOnly P) (h : Holds P chain) :
    (∀ found, (complete s chain).1 = .ok found → found.AllHave P) ∧
      Holds P (complete s chain).2 := by
  induction chain with
  | nil =>
      refine ⟨fun found hfound => ?_, h⟩
      obtain rfl : Modules.empty = found := Except.ok.inj hfound
      exact Modules.allHave_empty
  | cons scanner rest ih =>
      obtain ⟨hscanner, hrest⟩ := List.forall_mem_cons.mp h
      rcases hadvance : scanner.advance s fun _ => false with ⟨answer, scanner'⟩
      obtain ⟨hfound, hnext⟩ := Scanner.holds_advance hs hscanner hadvance
      rw [complete, Scanner.complete, hadvance]
      cases answer with
      | error e => exact ⟨by simp, List.forall_mem_cons.mpr ⟨hnext, hrest⟩⟩
      | ok found =>
          refine ⟨fun all hall => ?_, List.forall_mem_cons.mpr ⟨hnext, (ih hrest).2⟩⟩
          obtain ⟨others, hothers, rfl⟩ := map_eq_ok_iff.mp hall
          exact (hfound found rfl).union ((ih hrest).1 others hothers)

/-- A query answers with such modules only, and keeps no others. -/
theorem holds_ask {q : Query} {chain : List Scanner} (hs : s.ScansOnly P) (h : Holds P chain) :
    (∀ answer, (ask s q chain).1 = .ok answer → ∀ m ∈ answer.modules, P m) ∧
      Holds P (ask s q chain).2 := by
  cases q with
  | find name =>
      refine ⟨fun answer hanswer m hm => ?_, (holds_find hs h).2⟩
      obtain ⟨found, hfound, rfl⟩ := map_eq_ok_iff.mp hanswer
      obtain rfl : found = some m := by simpa [Answer.modules] using hm
      exact (holds_find hs h).1 m hfound
  | findAll =>
      refine ⟨fun answer hanswer m hm => ?_, (holds_complete hs h).2⟩
      obtain ⟨found, hfound, rfl⟩ := map_eq_ok_iff.mp hanswer
      exact (holds_complete hs h).1 found hfound m.name m (Modules.mem_toList.mp hm)

end Chain

namespace Catalog

/-- Catalogs as they are made, joined and queried while the files do not change. -/
inductive ReachableIn (s : Surroundings) : Catalog → Prop
  | empty : ReachableIn s .empty
  | ofEntries (entries : List Path) : ReachableIn s (.ofEntries entries)
  | ofImage (path : Path) : ReachableIn s (.ofImage path)
  | installed {permits : Path → Bool} {home : Path} {c : Catalog}
      (h : Installation.catalog s.storage permits home = .ok c) : ReachableIn s c
  | append {first second : Catalog} (hfirst : ReachableIn s first)
      (hsecond : ReachableIn s second) : ReachableIn s (first.append second)
  | ask {c : Catalog} (q : Query) (h : ReachableIn s c) : ReachableIn s (c.ask s q).2

variable {c : Catalog}

theorem ReachableIn.reachable (h : c.ReachableIn s) : c.Reachable := by
  induction h with
  | empty => exact .empty
  | ofEntries entries => exact .ofEntries entries
  | ofImage path => exact .ofImage path
  | installed h => exact .installed h
  | append _ _ ihfirst ihsecond => exact .append ihfirst ihsecond
  | ask q _ ih => exact .ask s q ih

theorem holds_scanners (hs : s.ScansOnly P) (h : c.ReachableIn s) :
    Chain.Holds P c.scanners := by
  induction h with
  | empty => simp [Chain.Holds, scanners]
  | ofEntries entries =>
      exact List.forall_mem_cons.mpr ⟨Modules.allHave_empty, by simp⟩
  | ofImage path =>
      exact List.forall_mem_cons.mpr ⟨Modules.allHave_empty, by simp⟩
  | installed h =>
      obtain ⟨layout, -, rfl⟩ := map_eq_ok_iff.mp h
      cases layout <;> exact List.forall_mem_cons.mpr ⟨Modules.allHave_empty, by simp⟩
  | append _ _ ihfirst ihsecond => exact List.forall_mem_append.mpr ⟨ihfirst, ihsecond⟩
  | ask q h ih =>
      obtain ⟨-, hscanners, -⟩ := ask_scanners (wellFormed_of_reachable h.reachable) s q
      rw [hscanners]
      exact (Chain.holds_ask hs ih).2

theorem forall_modules_of_ask (hs : s.ScansOnly P) (h : c.ReachableIn s) {q : Query}
    {answer : Answer} (hanswer : (c.ask s q).1 = .ok answer) : ∀ m ∈ answer.modules, P m := by
  obtain ⟨hreply, -, -⟩ := ask_scanners (wellFormed_of_reachable h.reachable) s q
  exact (Chain.holds_ask hs (holds_scanners hs h)).1 answer (hreply.symm.trans hanswer)

end Catalog

end ModuleSearch
