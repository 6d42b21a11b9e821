import ModuleSearch.Proofs.Catalog.Parts

/-!
# Listing a concatenation

The listing of a concatenation is looked up name by name after the two parts have been listed. It
is the union of their listings, in which a module of the first part hides one of its name in the
second: `listsUnion_append`.
-/

namespace ModuleSearch

open Chain (Settled)

/-- In ascending order one module for each name in the two listings, that of the first where both
have one. -/
structure IsUnion (ofFirst ofSecond listing : List LocatedModule) : Prop where
  ascending : listing.Pairwise fun m n => utf8 m.name < utf8 n.name
  mem_iff : ∀ m, m ∈ listing ↔ m ∈ ofFirst ∨ m ∈ ofSecond ∧ ∀ n ∈ ofFirst, n.name ≠ m.name

theorem Modules.isUnion (u w : Modules) : IsUnion u.toList w.toList (u.union w).toList where
  ascending := (u.union w).toList_ascending_utf8
  mem_iff _ := u.mem_toList_union w

theorem Modules.exists_get?_union {u w : Modules} {n : LocatedModule}
    (h : n ∈ u.toList ++ w.toList) : ∃ m, (u.union w).get? n.name = some m := by
  rw [get?_union]
  cases hu : u.get? n.name with
  | some m => exact ⟨m, rfl⟩
  | none =>
      rcases List.mem_append.mp h with hn | hn
      · rw [mem_toList, hu] at hn
        cases hn
      · exact ⟨n, mem_toList.mp hn⟩

namespace Catalog

/-- The catalog after the queries of a run. -/
def after (c : Catalog) (run : List Step) : Catalog :=
  run.foldl (fun c step => (c.ask step.surroundings step.query).2) c

variable {c first second : Catalog} {s : Surroundings} {all : Option (List LocatedModule)}

@[simp] theorem after_nil (c : Catalog) : c.after [] = c := rfl

@[simp] theorem after_cons (c : Catalog) (step : Step) (run : List Step) :
    c.after (step :: run) = (c.ask step.surroundings step.query).2.after run := rfl

theorem after_append (c : Catalog) (run run' : List Step) :
    c.after (run ++ run') = (c.after run).after run' := List.foldl_append

theorem after_find (c : Catalog) (s : Surroundings) (name : String) :
    c.after [⟨s, .find name⟩] = (c.find s name).2 := rfl

theorem Reachable.after (h : c.Reachable) (run : List Step) : (c.after run).Reachable := by
  induction run generalizing c with
  | nil => exact h
  | cons step rest ih => exact ih (.ask _ _ h)

theorem findAll_cases (h : c.WellFormed) (s : Surroundings) :
    (∃ e, (c.findAll s).1 = .error e) ∨ ∃ found : Modules,
      (c.findAll s).1 = .ok found.toList ∧ Settled (c.findAll s).2.scanners ⟨found, none⟩ := by
  obtain ⟨next, hlist, hscanners, -⟩ := scanners_findAll h s
  rw [hlist]
  cases hcomplete : (Chain.complete s c.scanners).1 with
  | error e => exact .inl ⟨e, rfl⟩
  | ok found =>
      refine .inr ⟨found, rfl, ?_⟩
      rw [hscanners]
      exact Chain.settled_of_complete (Prod.ext hcomplete rfl)

theorem findAll_concat_of_error {e : SearchError} (h : (first.findAll s).1 = .error e)
    (second : Catalog) :
    (concat first second none).findAll s = (.error e, concat (first.findAll s).2 second none) := by
  rw [findAll]
  rcases hlist : first.findAll s with ⟨answer, first'⟩
  rw [hlist] at h
  obtain rfl : answer = .error e := h
  rfl

theorem findAll_concat_of_ok_of_error {e : SearchError} {modules : List LocatedModule}
    (h : (first.findAll s).1 = .ok modules) (h' : (second.findAll s).1 = .error e) :
    (concat first second none).findAll s =
      (.error e, concat (first.findAll s).2 (second.findAll s).2 none) := by
  rw [findAll]
  rcases hlist : first.findAll s with ⟨answer, first'⟩
  rcases hlist' : second.findAll s with ⟨answer', second'⟩
  rw [hlist] at h
  rw [hlist'] at h'
  obtain rfl : answer = .ok modules := h
  obtain rfl : answer' = .error e := h'
  rfl

/-- All that listing a concatenation can do if no listing of it is kept. -/
theorem findAll_concat_cases (hfirst : first.WellFormed) (hsecond : second.WellFormed)
    (s : Surroundings) :
    (∃ e, (first.findAll s).1 = .error e ∧ (concat first second none).findAll s =
      (.error e, concat (first.findAll s).2 second none)) ∨
    (∃ modules e, (first.findAll s).1 = .ok modules ∧ (second.findAll s).1 = .error e ∧
      (concat first second none).findAll s =
        (.error e, concat (first.findAll s).2 (second.findAll s).2 none)) ∨
    ∃ u w : Modules, (first.findAll s).1 = .ok u.toList ∧ (second.findAll s).1 = .ok w.toList ∧
      Settled (first.findAll s).2.scanners ⟨u, none⟩ ∧
      Settled (second.findAll s).2.scanners ⟨w, none⟩ ∧
      (concat first second none).findAll s = (.ok (u.union w).toList,
        concat (first.findAll s).2 (second.findAll s).2 (some (u.union w).toList)) := by
  rcases findAll_cases hfirst s with ⟨e, hlist⟩ | ⟨u, hlist, hu⟩
  · exact .inl ⟨e, hlist, findAll_concat_of_error hlist second⟩
  · rcases findAll_cases hsecond s with ⟨e, hlist'⟩ | ⟨w, hlist', hw⟩
    · exact .inr (.inl ⟨_, e, hlist, hlist', findAll_concat_of_ok_of_error hlist hlist'⟩)
    · exact .inr (.inr ⟨u, w, hlist, hlist', hu, hw,
        findAll_concat (Prod.ext hlist rfl) (Prod.ext hlist' rfl) hu hw⟩)

/-- Once both parts have been listed, each name in the listings is found again. -/
theorem exists_find_of_settled {u w : Modules} (hu : Settled first.scanners ⟨u, none⟩)
    (hw : Settled second.scanners ⟨w, none⟩) (s : Surroundings) {n : LocatedModule}
    (hn : n ∈ u.toList ++ w.toList) : ∃ m ∈ (u.union w).toList, m.name = n.name ∧
      (concat first second none).find s n.name = (.ok (some m), concat first second none) := by
  have hboth : Settled (concat first second none).scanners ⟨u.union w, none⟩ := hu.append rfl hw
  obtain ⟨m, hm⟩ := Modules.exists_get?_union hn
  have hname := Modules.name_of_get? hm
  refine ⟨m, Modules.mem_toList.mpr (hname ▸ hm), hname, ?_⟩
  rw [find_of_settled hboth s n.name, Survey.lookup_of_success rfl, hm]

/-- What listing a concatenation gives if no listing of it is kept. -/
structure ListsUnion (s : Surroundings) (first second : Catalog) : Prop where
  error_iff : ∀ e, ((concat first second none).findAll s).1 = .error e ↔
    (first.findAll s).1 = .error e ∨
      (∃ modules, (first.findAll s).1 = .ok modules) ∧ (second.findAll s).1 = .error e
  /-- The second part is not asked if the first fails: it does not matter what it is. -/
  of_error : ∀ e, (first.findAll s).1 = .error e → ∀ second',
    (concat first second' none).findAll s = (.error e, concat (first.findAll s).2 second' none)
  of_ok : ∀ ofFirst ofSecond, (first.findAll s).1 = .ok ofFirst →
    (second.findAll s).1 = .ok ofSecond → ∃ listing,
      ((concat first second none).findAll s).1 = .ok listing ∧ IsUnion ofFirst ofSecond listing ∧
      (∀ n ∈ ofFirst ++ ofSecond, ∃ m ∈ listing, m.name = n.name ∧
        (concat (first.findAll s).2 (second.findAll s).2 none).find s n.name =
          (.ok (some m), concat (first.findAll s).2 (second.findAll s).2 none)) ∧
      ∀ run s', ((((concat first second none).findAll s).2.after run).findAll s').1 = .ok listing

theorem find_concat (s : Surroundings) (name : String) (first second : Catalog)
    (all : Option (List LocatedModule)) : ∃ run run', ((concat first second all).find s name).2 =
      concat (first.after run) (second.after run') all := by
  have hfirst := first.after_find s name
  have hsecond := second.after_find s name
  rw [find]
  rcases hfind : first.find s name with ⟨answer, first'⟩
  rw [hfind] at hfirst
  cases answer with
  | error e => exact ⟨_, [], congrArg (concat · second all) hfirst.symm⟩
  | ok found =>
      cases found with
      | some m => exact ⟨_, [], congrArg (concat · second all) hfirst.symm⟩
      | none => exact ⟨_, _, congrArg₂ (concat · · all) hfirst.symm hsecond.symm⟩

/-- A listing that is kept is given again and again. -/
theorem findAll_after_of_kept (listing : List LocatedModule) (run : List Step) (s : Surroundings) :
    (((concat first second (some listing)).after run).findAll s).1 = .ok listing := by
  induction run generalizing first second with
  | nil => rfl
  | cons step rest ih =>
      obtain ⟨s', q⟩ := step
      rw [after_cons]
      cases q with
      | find name =>
          obtain ⟨run, run', hfind⟩ := find_concat s' name first second (some listing)
          rw [ask]
          simp only [hfind]
          exact ih
      | findAll => exact ih

theorem listsUnion (hfirst : first.WellFormed) (hsecond : second.WellFormed) (s : Surroundings) :
    ListsUnion s first second := by
  have herror := fun e (h : (first.findAll s).1 = .error e) second' =>
    findAll_concat_of_error h second'
  rcases findAll_concat_cases hfirst hsecond s with ⟨e, hlist, hconcat⟩ |
    ⟨modules, e, hlist, hlist', hconcat⟩ | ⟨u, w, hlist, hlist', hu, hw, hconcat⟩
  · exact ⟨by simp [hlist, hconcat], herror, by simp [hlist]⟩
  · exact ⟨by simp [hlist, hlist', hconcat], herror, by simp [hlist']⟩
  · refine ⟨by simp [hlist, hlist', hconcat], herror, fun ofFirst ofSecond hofFirst hofSecond => ?_⟩
    obtain rfl := Except.ok.inj (hlist.symm.trans hofFirst)
    obtain rfl := Except.ok.inj (hlist'.symm.trans hofSecond)
    rw [hconcat]
    exact ⟨_, rfl, u.isUnion w, fun n hn => exists_find_of_settled hu hw s hn,
      findAll_after_of_kept _⟩

/-- Asking a concatenation is asking its parts. A listing is kept from the first one that is
answered. -/
theorem ask_concat (hfirst : first.WellFormed) (hsecond : second.WellFormed) (s : Surroundings)
    (q : Query) (all : Option (List LocatedModule)) : ∃ run run' all',
      ((concat first second all).ask s q).2 = concat (first.after run) (second.after run') all' ∧
      (all' = none ↔ all = none ∧
        ∀ modules, .ok (.all modules) ≠ ((concat first second all).ask s q).1) := by
  cases q with
  | find name =>
      obtain ⟨run, run', hfind⟩ := find_concat s name first second all
      refine ⟨run, run', all, hfind, ?_⟩
      have hreply : ∀ modules,
          .ok (.all modules) ≠ ((concat first second all).ask s (.find name)).1 := by
        intro modules hreply
        obtain ⟨m, -, h⟩ := map_eq_ok_iff.mp hreply.symm
        cases h
      simp [hreply]
  | findAll =>
      cases all with
      | some listing => exact ⟨[], [], some listing, rfl, by simp [ask, findAll, Except.map]⟩
      | none =>
          rw [ask]
          rcases findAll_concat_cases hfirst hsecond s with ⟨e, -, hconcat⟩ |
            ⟨modules, e, -, -, hconcat⟩ | ⟨u, w, -, -, -, -, hconcat⟩
          · rw [hconcat]
            exact ⟨[⟨s, .findAll⟩], [], none, rfl, by simp [Except.map]⟩
          · rw [hconcat]
            exact ⟨[⟨s, .findAll⟩], [⟨s, .findAll⟩], none, rfl, by simp [Except.map]⟩
          · rw [hconcat]
            exact ⟨[⟨s, .findAll⟩], [⟨s, .findAll⟩], _, rfl, by simp [Except.map]⟩

theorem after_concat (hwell : (concat first second all).WellFormed) (run : List Step) :
    ∃ ofFirst ofSecond all', (concat first second all).after run =
        concat (first.after ofFirst) (second.after ofSecond) all' ∧
      (all' = none ↔ all = none ∧
        ∀ modules, .ok (.all modules) ∉ (concat first second all).answers run) := by
  -- the parts change with each query, so the induction is for all parts
  induction run generalizing first second all with
  | nil => exact ⟨[], [], all, rfl, by simp [answers, answersOf]⟩
  | cons step rest ih =>
      obtain ⟨r, r', all₁, hask, hkept⟩ :=
        ask_concat hwell.1 hwell.2.1 step.surroundings step.query all
      have hwell₁ := (ask_scanners hwell step.surroundings step.query).2.2
      rw [hask] at hwell₁
      obtain ⟨r₁, r₁', all₂, hafter, hkept₁⟩ := ih hwell₁
      refine ⟨r ++ r₁, r' ++ r₁', all₂, ?_, ?_⟩
      · rw [after_cons, hask, hafter, after_append, after_append]
      · rw [hkept₁, hkept, and_assoc]
        simp only [answers, answersOf, hask, List.mem_cons, not_or, forall_and]

/-- After any run a concatenation lists the union of what its parts list, as they are by then,
unless it has been listed before. -/
theorem listsUnion_append {a b : Catalog} (ha : a.Reachable) (hb : b.Reachable) (run : List Step) :
    ∃ ofFirst ofSecond all,
      (a.append b).after run = concat (a.after ofFirst) (b.after ofSecond) all ∧
      (all = none ↔ ∀ modules, .ok (.all modules) ∉ (a.append b).answers run) ∧
      (all = none → ∀ s, ListsUnion s (a.after ofFirst) (b.after ofSecond)) := by
  obtain ⟨ofFirst, ofSecond, all, hafter, hkept⟩ :=
    after_concat (wellFormed_of_reachable (ha.append hb)) run
  refine ⟨ofFirst, ofSecond, all, hafter, hkept.trans (and_iff_right rfl), fun _ s => ?_⟩
  exact listsUnion (wellFormed_of_reachable (ha.after ofFirst))
    (wellFormed_of_reachable (hb.after ofSecond)) s

/-- The first part has been read by the first query, and the second has not been asked. It fails in
`Surroundings.sample`, and lists nothing when the files are gone. -/
theorem listsUnion_append_sample :
    let a := Catalog.empty.append (ofEntries [⟨"/m"⟩])
    let run : List Step := [⟨.sample, .find "m"⟩]
    a.Reachable ∧ sample.Reachable ∧
    (((a.append sample).after run).findAll .sample).1 = .error (.unreadable ⟨"/broken"⟩) ∧
    (((a.append sample).after run).findAll .bare).1 = .ok [.sample] ∧
    ∃ ofFirst ofSecond, (a.append sample).after run =
        concat (a.after ofFirst) (sample.after ofSecond) none ∧
      ∀ s, ListsUnion s (a.after ofFirst) (sample.after ofSecond) := by
  intro a run
  have ha : a.Reachable := .append .empty (.ofEntries _)
  have hanswers : (a.append sample).answers run = [.ok (.one (some .sample))] := by decide +kernel
  obtain ⟨ofFirst, ofSecond, all, hafter, hkept, hlists⟩ :=
    listsUnion_append ha reachable_sample run
  obtain rfl : all = none := hkept.mpr (by simp [hanswers])
  exact ⟨ha, reachable_sample, by decide +kernel, by decide +kernel, ofFirst, ofSecond, hafter,
    hlists rfl⟩

end Catalog

end ModuleSearch
