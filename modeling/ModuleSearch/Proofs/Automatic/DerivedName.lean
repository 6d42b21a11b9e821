import ModuleSearch.Error
import ModuleSearch.Proofs.Version.Tokens

/-!
# Legality of derived names

A file name that gives a name at all gives a legal module name, and a version only if its text is
one: `isModuleName_of_ofFileName?` and `version_of_ofFileName?`.
-/

namespace ModuleSearch.DerivedName

variable {text word : List Char} {fileName : String} {derived : DerivedName}

theorem of_mem_words (h : word ∈ words text) : word ≠ [] ∧ ∀ c ∈ word, c.isAlphanum = true := by
  obtain ⟨hpiece, hword⟩ := List.mem_filter.mp h
  refine ⟨by simpa using hword, fun c hc => ?_⟩
  simpa using Text.not_of_mem_splitOnP hpiece c hc

/-- The parts of the name are the words of the text. -/
theorem parts_normalize (h : words text ≠ []) :
    Name.parts (String.ofList (normalize text)) = words text := by
  rw [Name.parts, String.toList_ofList]
  refine List.splitOn_intercalate '.' (fun word hword hdot => ?_) h
  exact absurd ((of_mem_words hword).2 '.' hdot) (by decide)

theorem normalize_eq_nil_iff : normalize text = [] ↔ words text = [] := by
  rw [normalize]
  cases hwords : words text with
  | nil => simp
  | cons word rest =>
      have hmem : word ∈ words text := by simp [hwords]
      obtain ⟨c, word, rfl⟩ := List.exists_cons_of_ne_nil (of_mem_words hmem).1
      simp [List.intercalate_cons_cons_left]

theorem isModuleName_normalize (h : words text ≠ []) :
    Name.isModuleName (String.ofList (normalize text)) = true := by
  rw [Name.isModuleName, parts_normalize h, List.all_eq_true]
  intro word hword
  obtain ⟨hne, hchars⟩ := of_mem_words hword
  have hnames : ∀ c ∈ word, Name.isNameChar c = true := by
    intro c hc
    simp [Name.isNameChar, hchars c hc]
  simpa [Name.isModulePart, hne] using hnames

theorem isModuleName_of_ofFileName? (h : ofFileName? fileName = some derived) :
    Name.isModuleName derived.name = true := by
  simp only [ofFileName?, Option.ite_none_left_eq_some, List.isEmpty_iff] at h
  obtain ⟨hname, hderived⟩ := h
  obtain rfl := Option.some.inj hderived
  exact isModuleName_normalize (mt normalize_eq_nil_iff.mpr hname)

theorem version_of_ofFileName? (h : ofFileName? fileName = some derived) {v : Version}
    (hv : derived.version = some v) : Version.parse? v.text = some v := by
  simp only [ofFileName?, Option.ite_none_left_eq_some] at h
  obtain rfl := Option.some.inj h.2
  obtain ⟨text, -, hparse⟩ := Option.bind_eq_some_iff.mp hv
  rwa [Version.text_of_parse (Version.parse?_eq_some_iff.mp hparse)]

end ModuleSearch.DerivedName
