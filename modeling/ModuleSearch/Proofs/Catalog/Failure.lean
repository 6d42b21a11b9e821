import ModuleSearch.Proofs.Catalog.Parts

/-!
# Catalogs after an error

An error puts an end to the part of a catalog that met it, but not to the parts before it. Those
had been read to their end, and the names in them are still found: `answers_after_error`. Every
other query fails, and in a catalog of one part every query does.
-/

namespace ModuleSearch

open Chain (Settled)

/-- The answer once a part has failed, if the parts before it hold these modules. -/
def replyAfterError (held : Modules) : Query → Reply
  | .find name =>
    match held.get? name with
    | some m => .ok (.one (some m))
    | none => .error .unusable
  | .findAll => .error .unusable

/-- The modules of the parts before the first that cannot be read to its end. -/
def Catalog.readable (s : Surroundings) (c : Catalog) : Modules := Chain.readable s c.scanners

variable {c : Catalog} {s : Surroundings} {q : Query} {e : SearchError}

theorem answer_eq_replyAfterError (held : Modules) (q : Query) :
    (Survey.mk held (some .unusable)).answer q = replyAfterError held q := by
  cases q with
  | find name =>
      rw [Survey.answer, Survey.lookup, replyAfterError]
      cases held.get? name <;> rfl
  | findAll => rfl

theorem replyAfterError_unusable_iff (held : Modules) :
    (∀ q, replyAfterError held q = .error .unusable) ↔ held = .empty := by
  constructor
  · intro h
    apply Modules.ext_get?
    intro name
    have hname := h (.find name)
    rw [replyAfterError] at hname
    rw [Modules.get?_empty]
    cases hget : held.get? name with
    | none => rfl
    | some m => simp [hget] at hname
  · rintro rfl q
    cases q <;> rfl

theorem settled_after_error (hc : c.Reachable) (h : (c.ask s q).1 = .error e) :
    Settled (c.ask s q).2.scanners ⟨c.readable s, some .unusable⟩ := by
  obtain ⟨hreply, hscanners, -⟩ := Catalog.ask_scanners (Catalog.wellFormed_of_reachable hc) s q
  rw [hscanners]
  exact Chain.settled_of_error (hreply.symm.trans h)

theorem readable_eq_empty_of_single {scanner : Scanner} (hc : c.Reachable)
    (hsingle : c.scanners = [scanner]) (h : (c.ask s q).1 = .error e) :
    c.readable s = .empty := by
  obtain ⟨hreply, -, -⟩ := Catalog.ask_scanners (Catalog.wellFormed_of_reachable hc) s q
  have hsettled := Chain.settled_of_error (hreply.symm.trans h)
  obtain ⟨next, hnext⟩ := Chain.ask_singleton s q scanner
  rw [hsingle, hnext] at hsettled
  rw [Catalog.readable, hsingle]
  exact congrArg Survey.modules (hsettled.eq_unusable rfl)

/-- After an error exactly the modules before the part that failed are still found. So every query
fails from then on if and only if there are none. -/
theorem answers_after_error (hc : c.Reachable) (h : (c.ask s q).1 = .error e) :
    (∀ run, (c.ask s q).2.answers run =
      run.map fun step => replyAfterError (c.readable s) step.query) ∧
    ((∀ run, ∀ reply ∈ (c.ask s q).2.answers run, reply = .error .unusable) ↔
      c.readable s = .empty) := by
  have hanswers : ∀ run, (c.ask s q).2.answers run =
      run.map fun step => replyAfterError (c.readable s) step.query := by
    intro run
    rw [Catalog.answers_eq (.ask s q hc), (settled_after_error hc h).answers_eq]
    simp only [answer_eq_replyAfterError]
  refine ⟨hanswers, ?_⟩
  rw [← replyAfterError_unusable_iff]
  constructor
  · intro hall q'
    refine hall [⟨s, q'⟩] _ ?_
    simp [hanswers]
  · intro hall run reply hreply
    rw [hanswers, List.mem_map] at hreply
    obtain ⟨step, -, rfl⟩ := hreply
    exact hall step.query

theorem answers_after_error_sample :
    (Catalog.sample.ask .sample (.find "absent")).1 = .error (.unreadable ⟨"/broken"⟩) ∧
    (∀ run, (Catalog.sample.ask .sample (.find "absent")).2.answers run =
      run.map fun step => replyAfterError (Catalog.sample.readable .sample) step.query) ∧
    ((∀ run, ∀ reply ∈ (Catalog.sample.ask .sample (.find "absent")).2.answers run,
      reply = .error .unusable) ↔ Catalog.sample.readable .sample = .empty) := by
  have herror : (Catalog.sample.ask .sample (.find "absent")).1 =
      .error (.unreadable ⟨"/broken"⟩) := by decide +kernel
  exact ⟨herror, answers_after_error Catalog.reachable_sample herror⟩

/-- A module before the part that failed is found as if there had been no error. -/
theorem find_after_error_sample :
    Catalog.sample.answers [⟨.sample, .find "absent"⟩, ⟨.sample, .find "m"⟩, ⟨.sample, .findAll⟩] =
      [.error (.unreadable ⟨"/broken"⟩), .ok (.one (some .sample)), .error .unusable] := by
  decide +kernel

end ModuleSearch
