import ModuleSearch.Proofs.Catalog.Parts

/-!
# Joined catalogs

Only the order of the parts of a catalog can be observed, not how they are nested: catalogs form a
monoid with `Catalog.append` and `Catalog.empty`.
-/

namespace ModuleSearch.Catalog

variable {a b c : Catalog}

/-- Catalogs with the same parts give the same answers. -/
theorem answers_congr (ha : a.Reachable) (hb : b.Reachable) (h : a.scanners = b.scanners)
    (run : List Step) : a.answers run = b.answers run := by
  rw [answers_eq ha, answers_eq hb, h]

theorem scanners_append (a b : Catalog) : (a.append b).scanners = a.scanners ++ b.scanners := rfl

theorem scanners_append_assoc (a b c : Catalog) :
    ((a.append b).append c).scanners = (a.append (b.append c)).scanners := by
  simp only [scanners_append, List.append_assoc]

theorem scanners_append_empty (a : Catalog) : (a.append .empty).scanners = a.scanners :=
  List.append_nil a.scanners

theorem scanners_empty_append (a : Catalog) : (Catalog.empty.append a).scanners = a.scanners := rfl

/-- The laws hold for every answer of every run, those after an error included. -/
theorem append_monoid (ha : a.Reachable) (hb : b.Reachable) (hc : c.Reachable)
    (run : List Step) :
    ((a.append b).append c).answers run = (a.append (b.append c)).answers run ∧
      (a.append .empty).answers run = a.answers run ∧
      (Catalog.empty.append a).answers run = a.answers run := by
  refine ⟨?_, ?_, ?_⟩
  · exact answers_congr (.append (.append ha hb) hc) (.append ha (.append hb hc))
      (scanners_append_assoc a b c) run
  · exact answers_congr (.append ha .empty) ha (scanners_append_empty a) run
  · exact answers_congr (.append .empty ha) ha (scanners_empty_append a) run

theorem append_monoid_sample :
    (((ofEntries [⟨"/m"⟩]).append (ofImage ⟨"/absent"⟩)).append sample).answers sampleRun =
      [.ok (.one (some .sample)), .ok (.one (some .sample)), .error (.unreadable ⟨"/absent"⟩),
        .error .unusable] ∧
    (((ofEntries [⟨"/m"⟩]).append (ofImage ⟨"/absent"⟩)).append sample).answers sampleRun =
      ((ofEntries [⟨"/m"⟩]).append ((ofImage ⟨"/absent"⟩).append sample)).answers sampleRun ∧
    ((ofEntries [⟨"/m"⟩]).append .empty).answers sampleRun =
      (ofEntries [⟨"/m"⟩]).answers sampleRun ∧
    (Catalog.empty.append (ofEntries [⟨"/m"⟩])).answers sampleRun =
      (ofEntries [⟨"/m"⟩]).answers sampleRun :=
  ⟨by decide +kernel, append_monoid (.ofEntries _) (.ofImage _) reachable_sample sampleRun⟩

end ModuleSearch.Catalog
