import ModuleSearch.Proofs.Catalog.Chain

/-!
# The parts of a catalog

A catalog answers like the chain of its parts, whatever the nesting of its concatenations and
whatever full listings they keep: `answers_eq`. A listing that is kept is the one that the parts
give, since they are settled by then (`WellFormed`).
-/

namespace ModuleSearch

open Chain (Settled)

def PathState.scanner : PathState → Scanner
  | scanning pending found => .active (pending.map .entry) found
  | failed => .failed

def ImageState.scanner (file : Path) : ImageState → Scanner
  | unread => .active [.image file] .empty
  | indexed modules => .active [] modules
  | failed => .failed

/-- Listings in ascending order are equal if they hold the same modules. -/
theorem eq_of_ascending {xs ys : List LocatedModule}
    (hxs : xs.Pairwise fun m n => m.name < n.name) (hys : ys.Pairwise fun m n => m.name < n.name)
    (h : ∀ m, m ∈ xs ↔ m ∈ ys) : xs = ys := by
  have hne : ∀ m n : LocatedModule, m.name < n.name → m ≠ n := by
    rintro m n hlt rfl
    exact String.lt_irrefl _ hlt
  have hperm : xs.Perm ys :=
    (List.perm_ext_iff_of_nodup (hxs.imp (hne _ _)) (hys.imp (hne _ _))).mpr h
  refine hperm.eq_of_pairwise ?_ hxs hys
  intro m n _ _ hmn hnm
  exact absurd (String.lt_trans hmn hnm) (String.lt_irrefl _)

namespace PathState

theorem scanner_find (s : Surroundings) (name : String) (state : PathState) :
    state.scanner.find s name = ((state.find s name).1, (state.find s name).2.scanner) := by
  cases state with
  | failed => rfl
  | scanning pending found =>
      simp only [find, scanner, Scanner.find, Scanner.advance]
      induction pending generalizing found with
      | nil => rfl
      | cons entry rest ih =>
          rw [List.map_cons, findFrom, Scanner.scanFrom, Scan.run]
          cases hget : found.get? name with
          | some m => simp [Except.map, hget]
          | none =>
              simp only [Option.isSome_none, Bool.false_eq_true, if_false]
              cases s.scan entry with
              | error e => rfl
              | ok modules => exact ih _

theorem scanner_complete (s : Surroundings) (state : PathState) :
    (state.findAll s).1 = (state.scanner.complete s).1.map Modules.toList ∧
      (state.findAll s).2.scanner = (state.scanner.complete s).2 := by
  cases state with
  | failed => exact ⟨rfl, rfl⟩
  | scanning pending found =>
      simp only [findAll, scanner, Scanner.complete, Scanner.advance]
      induction pending generalizing found with
      | nil => exact ⟨rfl, rfl⟩
      | cons entry rest ih =>
          rw [List.map_cons, findAllFrom, Scanner.scanFrom, Scan.run]
          cases s.scan entry with
          | error e => exact ⟨rfl, rfl⟩
          | ok modules => exact ih _

theorem find_of_settled {state : PathState} {v : Survey} (h : Settled [state.scanner] v)
    (s : Surroundings) (name : String) : (state.find s name).2 = state := by
  cases state with
  | failed => rfl
  | scanning pending found =>
      cases pending with
      | nil => rfl
      | cons entry rest => cases h

end PathState

namespace ImageState

theorem scanner_find (s : Surroundings) (file : Path) (name : String) (state : ImageState) :
    (state.scanner file).find s name =
      ((state.index s file).1.map fun found => found.get? name,
        (state.index s file).2.scanner file) := by
  cases state with
  | failed => rfl
  | indexed modules => rfl
  | unread =>
      simp only [scanner, Scanner.find, Scanner.advance, Scanner.scanFrom, Scan.run, index]
      cases s.scanImage file with
      | error e => rfl
      | ok modules => rfl

theorem scanner_complete (s : Surroundings) (file : Path) (state : ImageState) :
    (state.scanner file).complete s =
      ((state.index s file).1, (state.index s file).2.scanner file) := by
  cases state with
  | failed => rfl
  | indexed modules => rfl
  | unread =>
      simp only [scanner, Scanner.complete, Scanner.advance, Scanner.scanFrom, Scan.run, index]
      cases s.scanImage file with
      | error e => rfl
      | ok modules => rfl

theorem index_of_settled {file : Path} {state : ImageState} {v : Survey}
    (h : Settled [state.scanner file] v) (s : Surroundings) : (state.index s file).2 = state := by
  cases state with
  | failed => rfl
  | indexed modules => rfl
  | unread => cases h

end ImageState

namespace Catalog

/-- The parts in the order in which they are asked. -/
def scanners : Catalog → List Scanner
  | empty => []
  | path state => [state.scanner]
  | image file state => [state.scanner file]
  | concat first second _ => first.scanners ++ second.scanners

/-- A full listing is kept only when no part reads a file any more. -/
def WellFormed : Catalog → Prop
  | concat first second all =>
    first.WellFormed ∧ second.WellFormed ∧ ∀ modules, all = some modules →
      ∃ found, Settled (first.scanners ++ second.scanners) ⟨found, none⟩ ∧
        modules = found.toList
  | _ => True

variable {s : Surroundings} {c first second : Catalog} {v : Survey}
  {modules : List LocatedModule}

theorem scanners_find (s : Surroundings) (name : String) (c : Catalog) :
    Chain.find s name c.scanners = ((c.find s name).1, (c.find s name).2.scanners) := by
  induction c with
  | empty => rfl
  | path state =>
      rw [scanners, Chain.find_singleton, state.scanner_find]
      rfl
  | image file state =>
      rw [scanners, Chain.find_singleton, state.scanner_find]
      rfl
  | concat first second all ihfirst ihsecond =>
      rw [scanners, Chain.find_append, ihfirst, find]
      rcases first.find s name with ⟨answer, first'⟩
      match answer with
      | .error e => rfl
      | .ok (some m) => rfl
      | .ok none => simp [ihsecond, scanners]

/-- Looking up a name in a settled catalog changes nothing. -/
theorem find_of_settled (h : Settled c.scanners v) (s : Surroundings) (name : String) :
    c.find s name = (v.lookup name, c) := by
  have hanswer : (c.find s name).1 = v.lookup name := by
    have hchain := scanners_find s name c
    rw [h.find_eq s name] at hchain
    exact (congrArg Prod.fst hchain).symm
  refine Prod.ext hanswer ?_
  clear hanswer
  induction c generalizing v with
  | empty => rfl
  | path state => exact congrArg path (state.find_of_settled h s name)
  | image file state => exact congrArg (image file) (state.index_of_settled h s)
  | concat first second all ihfirst ihsecond =>
      obtain ⟨a, ha, hsettled⟩ := Settled.of_append h
      have hfirst := ihfirst ha
      have hlookup := congrArg Prod.fst (scanners_find s name first)
      rw [ha.find_eq s name] at hlookup
      rw [find]
      rcases hfind : first.find s name with ⟨answer, first'⟩
      rw [hfind] at hfirst hlookup
      obtain rfl : first' = first := hfirst
      match answer with
      | .error e => rfl
      | .ok (some m) => rfl
      | .ok none =>
          obtain ⟨b, hb⟩ := hsettled (Survey.failure_of_lookup_none hlookup)
          simp only [ihsecond hb]

theorem findEach_of_settled {found : Modules} (h : Settled c.scanners ⟨found, none⟩)
    (s : Surroundings) (names : List String) :
    c.findEach s names = (.ok (names.filterMap found.get?), c) := by
  induction names with
  | nil => rfl
  | cons name rest ih =>
      rw [findEach, find_of_settled h s name, Survey.lookup_of_success rfl]
      simp only [ih]
      cases hget : found.get? name <;> simp [Except.map, hget]

/-- Looking up again every name of two listings gives their union. -/
theorem filterMap_namesOf (first second : Modules) :
    (namesOf (first.toList ++ second.toList)).filterMap (first.union second).get? =
      (first.union second).toList := by
  refine eq_of_ascending ?_ (first.union second).toList_ascending ?_
  · refine List.Pairwise.filterMap _ ?_ (NameSet.toList_ascending _)
    intro name other hlt m hm n hn
    rw [Modules.name_of_get? hm, Modules.name_of_get? hn]
    exact hlt
  · intro m
    rw [List.mem_filterMap, Modules.mem_toList]
    constructor
    · rintro ⟨name, -, hm⟩
      rw [Modules.name_of_get? hm]
      exact hm
    · intro hm
      refine ⟨m.name, NameSet.mem_ofNames.mpr ?_, hm⟩
      refine List.mem_map.mpr ⟨m, List.mem_append.mpr ?_, rfl⟩
      rw [Modules.mem_toList, Modules.mem_toList]
      rw [Modules.get?_union] at hm
      cases hfirst : first.get? m.name with
      | none => exact .inr (by simpa [hfirst] using hm)
      | some n => exact .inl (by simpa [hfirst] using hm)

theorem findEach_concat {first second : Catalog} {u w : Modules}
    (hu : Settled first.scanners ⟨u, none⟩) (hw : Settled second.scanners ⟨w, none⟩)
    (s : Surroundings) :
    (concat first second none).findEach s (namesOf (u.toList ++ w.toList)) =
      (.ok (u.union w).toList, concat first second none) := by
  have hboth : Settled (concat first second none).scanners ⟨u.union w, none⟩ := hu.append rfl hw
  rw [findEach_of_settled hboth s, filterMap_namesOf]

theorem findAll_concat {first second first' second' : Catalog} {u w : Modules}
    (hfirst : first.findAll s = (.ok u.toList, first'))
    (hsecond : second.findAll s = (.ok w.toList, second'))
    (hu : Settled first'.scanners ⟨u, none⟩) (hw : Settled second'.scanners ⟨w, none⟩) :
    (concat first second none).findAll s =
      (.ok (u.union w).toList, concat first' second' (some (u.union w).toList)) := by
  rw [findAll, hfirst]
  simp only [hsecond, findEach_concat hu hw s, remember]

theorem wellFormed_find (h : c.WellFormed) (s : Surroundings) (name : String) :
    (c.find s name).2.WellFormed := by
  induction c with
  | empty => exact h
  | path state => exact h
  | image file state => exact h
  | concat first second all ihfirst ihsecond =>
      obtain ⟨hfirst, hsecond, hall⟩ := h
      cases all with
      | some modules =>
          -- what settles the parts keeps the listing true: the query changes nothing
          obtain ⟨found, hsettled, -⟩ := hall modules rfl
          rw [find_of_settled (c := concat first second (some modules)) hsettled s name]
          exact ⟨hfirst, hsecond, hall⟩
      | none =>
          have hfirst' := ihfirst hfirst
          have hsecond' := ihsecond hsecond
          rw [find]
          rcases hfind : first.find s name with ⟨answer, first'⟩
          rw [hfind] at hfirst'
          match answer with
          | .error e => exact ⟨hfirst', hsecond, by simp⟩
          | .ok (some m) => exact ⟨hfirst', hsecond, by simp⟩
          | .ok none => exact ⟨hfirst', hsecond', by simp⟩

/-- Listing a catalog reads all that its parts have left to read, and no more. -/
theorem scanners_findAll (h : c.WellFormed) (s : Surroundings) :
    ∃ next, c.findAll s = ((Chain.complete s c.scanners).1.map Modules.toList, next) ∧
      next.scanners = (Chain.complete s c.scanners).2 ∧ next.WellFormed := by
  induction c with
  | empty => exact ⟨_, rfl, rfl, h⟩
  | path state =>
      obtain ⟨hanswer, hstate⟩ := state.scanner_complete s
      rw [scanners, Chain.complete_singleton, ← hstate]
      exact ⟨_, congrArg (Prod.mk · _) hanswer, rfl, trivial⟩
  | image file state =>
      rw [scanners, Chain.complete_singleton, state.scanner_complete]
      exact ⟨_, rfl, rfl, trivial⟩
  | concat first second all ihfirst ihsecond =>
      obtain ⟨hfirst, hsecond, hall⟩ := h
      cases all with
      | some modules =>
          obtain ⟨found, hsettled, rfl⟩ := hall modules rfl
          rw [scanners, hsettled.complete_eq s]
          exact ⟨_, rfl, rfl, hfirst, hsecond, hall⟩
      | none =>
          obtain ⟨first', hlist, hscanners, hwell⟩ := ihfirst hfirst
          obtain ⟨second', hlist', hscanners', hwell'⟩ := ihsecond hsecond
          rw [scanners, Chain.complete_append]
          rcases hcomplete : Chain.complete s first.scanners with ⟨answer, chain⟩
          rcases hcomplete' : Chain.complete s second.scanners with ⟨answer', chain'⟩
          rw [hcomplete] at hlist hscanners
          rw [hcomplete'] at hlist' hscanners'
          obtain rfl : first'.scanners = chain := hscanners
          obtain rfl : second'.scanners = chain' := hscanners'
          match answer, answer' with
          | .error e, _ =>
              refine ⟨concat first' second none, ?_, rfl, hwell, hsecond, by simp⟩
              rw [findAll, hlist]
              rfl
          | .ok u, .error e =>
              refine ⟨concat first' second' none, ?_, rfl, hwell, hwell', by simp⟩
              rw [findAll, hlist]
              simp only [hlist', Except.map]
          | .ok u, .ok w =>
              have hu := Chain.settled_of_complete hcomplete
              have hw := Chain.settled_of_complete hcomplete'
              refine ⟨_, findAll_concat hlist hlist' hu hw, rfl, hwell, hwell', ?_⟩
              intro modules hkept
              exact ⟨u.union w, hu.append rfl hw, (Option.some.inj hkept).symm⟩

theorem find_eq_lookup (s : Surroundings) (name : String) (c : Catalog) :
    (c.find s name).1 = (Chain.survey s c.scanners).lookup name := by
  rw [← Chain.find_answer, scanners_find]

theorem findAll_eq_all (h : c.WellFormed) (s : Surroundings) :
    (c.findAll s).1 = (Chain.survey s c.scanners).all.map Modules.toList := by
  obtain ⟨next, hlist, -⟩ := scanners_findAll h s
  rw [hlist, ← Chain.complete_answer]

/-- A catalog that can be listed answers about a name from its listing. -/
theorem exists_modules_of_findAll (h : c.WellFormed) (hall : (c.findAll s).1 = .ok modules) :
    ∃ found : Modules, modules = found.toList ∧
      ∀ name, (c.find s name).1 = .ok (found.get? name) := by
  rw [findAll_eq_all h] at hall
  obtain ⟨found, hfound, rfl⟩ := map_eq_ok_iff.mp hall
  obtain ⟨hfailure, rfl⟩ := Survey.all_eq_ok_iff.mp hfound
  refine ⟨_, rfl, fun name => ?_⟩
  rw [find_eq_lookup, Survey.lookup_of_success hfailure]

theorem ascending_of_findAll (h : c.WellFormed) (hall : (c.findAll s).1 = .ok modules) :
    modules.Pairwise fun m n => m.name < n.name := by
  obtain ⟨found, rfl, -⟩ := exists_modules_of_findAll h hall
  exact found.toList_ascending

/-- A module of a name in the first catalog hides that in the second. -/
theorem mem_findAll_append (hfirst : first.WellFormed) (hsecond : second.WellFormed)
    (hall : ((first.append second).findAll s).1 = .ok modules) :
    ∃ ofFirst ofSecond, (first.findAll s).1 = .ok ofFirst ∧ (second.findAll s).1 = .ok ofSecond ∧
      ∀ m, m ∈ modules ↔ m ∈ ofFirst ∨ m ∈ ofSecond ∧ ∀ n ∈ ofFirst, n.name ≠ m.name := by
  have hboth : (first.append second).WellFormed := ⟨hfirst, hsecond, by simp⟩
  obtain ⟨next, hlist, -⟩ := scanners_findAll hboth s
  obtain ⟨nextFirst, hlistFirst, -⟩ := scanners_findAll hfirst s
  obtain ⟨nextSecond, hlistSecond, -⟩ := scanners_findAll hsecond s
  rw [hlist, append, scanners, Chain.complete_append] at hall
  rw [hlistFirst, hlistSecond]
  rcases hcomplete : Chain.complete s first.scanners with ⟨answer, chain⟩
  cases answer with
  | error e => simp [hcomplete, Except.map] at hall
  | ok u =>
      simp only [hcomplete] at hall ⊢
      obtain ⟨found, hfound, rfl⟩ := map_eq_ok_iff.mp hall
      obtain ⟨w, hw, rfl⟩ := map_eq_ok_iff.mp hfound
      rw [hw]
      refine ⟨u.toList, w.toList, rfl, rfl, fun m => ?_⟩
      rw [Modules.mem_toList_union]

theorem ask_scanners (h : c.WellFormed) (s : Surroundings) (q : Query) :
    (c.ask s q).1 = (Chain.ask s q c.scanners).1 ∧
      (c.ask s q).2.scanners = (Chain.ask s q c.scanners).2 ∧ (c.ask s q).2.WellFormed := by
  cases q with
  | find name =>
      rw [Chain.ask, scanners_find]
      exact ⟨rfl, rfl, wellFormed_find h s name⟩
  | findAll =>
      obtain ⟨next, hlist, hscanners, hwell⟩ := scanners_findAll h s
      rw [ask, hlist]
      refine ⟨?_, hscanners, hwell⟩
      change _ = (Chain.complete s c.scanners).1.map _
      cases (Chain.complete s c.scanners).1 <;> rfl

theorem wellFormed_of_reachable (h : c.Reachable) : c.WellFormed := by
  induction h with
  | empty => trivial
  | ofEntries entries => trivial
  | ofImage path => trivial
  | @installed storage permits home c h =>
      obtain ⟨layout, -, rfl⟩ := map_eq_ok_iff.mp h
      cases layout <;> trivial
  | append _ _ ihfirst ihsecond => exact ⟨ihfirst, ihsecond, by simp⟩
  | ask s q _ ih => exact (ask_scanners ih s q).2.2

/-- A catalog answers like the chain of its parts. -/
theorem answers_eq (h : c.Reachable) (run : List Step) :
    c.answers run = answersOf Chain.ask c.scanners run := by
  refine answersOf_eq_of_simulation (fun c chain => c.WellFormed ∧ c.scanners = chain) ?_
    ⟨wellFormed_of_reachable h, rfl⟩ run
  rintro s q c _ ⟨hwell, rfl⟩
  obtain ⟨hreply, hscanners, hwell'⟩ := ask_scanners hwell s q
  exact ⟨hreply, hwell', hscanners⟩

end Catalog

end ModuleSearch
