import ModuleSearch.Proofs.Automatic.FileName

/-!
# Derived names written as file names

A derived name has no hyphen and is made of words, so from a file named after it, with or without a
version, it is derived again: `ofFileName?_written`.
-/

namespace ModuleSearch.DerivedName

variable {name : List Char} {words : List (List Char)}

/-- Words joined by dots are the words of the text. -/
theorem isWords_intercalate (h : ∀ word ∈ words, word ≠ [] ∧ ∀ c ∈ word, c.isAlphanum = true) :
    IsWords (['.'].intercalate words) words := by
  induction words with
  | nil => exact .none (by simp)
  | cons word rest ih =>
      obtain ⟨⟨hne, hword⟩, hrest⟩ := List.forall_mem_cons.mp h
      cases rest with
      | nil => simpa using @IsWords.word [] word [] _ (by simp) hne hword (by simp) (ih hrest)
      | cons second others =>
          have hdot : IsWords ('.' :: ['.'].intercalate (second :: others)) (second :: others) :=
            (ih hrest).cons_of_gap rfl
          simpa using @IsWords.word [] word _ _ (by simp) hne hword (by simp) hdot

theorem hyphen_not_mem_intercalate
    (h : ∀ word ∈ words, word ≠ [] ∧ ∀ c ∈ word, c.isAlphanum = true) :
    '-' ∉ ['.'].intercalate words := by
  intro hmem
  rcases Text.eq_or_mem_of_mem_intercalate hmem with hdot | ⟨word, hword, hc⟩
  · exact absurd hdot (by decide)
  · exact absurd ((h word hword).2 '-' hc) (by decide)

theorem isSplit_of_not_mem (h : '-' ∉ name) : IsSplit name name none :=
  .unmarked fun before after hname _ => h (by simp [hname])

theorem isSplit_append {after : List Char} (h : '-' ∉ name) (hnumber : StartsWithNumber after) :
    IsSplit (name ++ '-' :: after) name (some after) := by
  induction name with
  | nil => exact @IsSplit.marked [] after hnumber fun _ _ _ _ => Nat.zero_le _
  | cons c name ih =>
      obtain ⟨hc, hname⟩ : '-' ≠ c ∧ '-' ∉ name := by simpa using h
      exact (ih hname).cons fun hmark => hc hmark.1.symm

/-- A name that can be derived: words joined by dots. -/
def IsJoined (name : String) : Prop :=
  ∃ words : List (List Char), words ≠ [] ∧
    (∀ word ∈ words, word ≠ [] ∧ ∀ c ∈ word, c.isAlphanum = true) ∧
    name.toList = ['.'].intercalate words

theorem isJoined_of_ofFileName? {fileName : String} {derived : DerivedName}
    (h : ofFileName? fileName = some derived) : IsJoined derived.name := by
  rw [(Parts.of_partsOf fileName).ofFileName?_eq, Option.ite_none_left_eq_some] at h
  obtain ⟨hwords, hderived⟩ := h
  obtain rfl := Option.some.inj hderived
  exact ⟨(partsOf fileName).words, hwords, fun word => of_mem_words, String.toList_ofList⟩

theorem IsJoined.hyphen_not_mem {name : String} (h : IsJoined name) : '-' ∉ name.toList := by
  obtain ⟨words, -, hwords, hname⟩ := h
  rw [hname]
  exact hyphen_not_mem_intercalate hwords

/-- A name that can be derived is derived where it is the name part. -/
theorem IsJoined.ofFileName?_eq {name stem ending : String} {version : Option (List Char)}
    (h : IsJoined name) (hsplit : IsSplit stem.toList name.toList version)
    (hending : SpellsSuffix ending) : ofFileName? (stem ++ ending) =
      some ⟨name, version.bind fun text => Version.parse? (String.ofList text)⟩ := by
  obtain ⟨words, hne, hwords, hname⟩ := h
  have hparts : (Parts.mk stem name.toList version words).Of (stem ++ ending) :=
    ⟨.cut hending (utf8_append stem ending), hsplit, hname ▸ isWords_intercalate hwords⟩
  rw [hparts.ofFileName?_eq, if_neg hne, Parts.derived, ← hname, String.ofList_toList]

/-- From a file with a derived name that name is derived, and from one with a derived name and a
version these. The version has to start with a number of its own. -/
theorem ofFileName?_written {fileName : String} {derived : DerivedName}
    (h : ofFileName? fileName = some derived) {ending : String} (hending : SpellsSuffix ending) :
    ofFileName? (derived.name ++ ending) = some ⟨derived.name, none⟩ ∧
      ∀ (s : String) (v : Version), Version.parse s = .ok v → StartsWithNumber s.toList →
        ofFileName? (derived.name ++ "-" ++ s ++ ending) = some ⟨derived.name, some v⟩ ∧
          v.text = s := by
  have hjoined := isJoined_of_ofFileName? h
  refine ⟨hjoined.ofFileName?_eq (isSplit_of_not_mem hjoined.hyphen_not_mem) hending, ?_⟩
  intro s v hparse hnumber
  have hsplit : IsSplit (derived.name ++ "-" ++ s).toList derived.name.toList (some s.toList) := by
    simpa using isSplit_append hjoined.hyphen_not_mem hnumber
  refine ⟨?_, Version.text_of_parse hparse⟩
  rw [hjoined.ofFileName?_eq hsplit hending, Option.bind_some, String.ofList_toList,
    Version.parse?_eq_some_iff.mpr hparse]

/-- Neither the hyphens nor the number after one of them in the version move where the name ends. -/
theorem ofFileName?_written_sample :
    let derived : DerivedName := ⟨"my.thing", some ⟨"2", [.number ['2']], [], []⟩⟩
    let v : Version := ⟨"1.0-rc-3+b-4.x", [.number ['1'], .number ['0']],
      [.text ['r', 'c'], .number ['3']], [.text ['b'], .number ['4'], .text ['x']]⟩
    ofFileName? "my_thing-2.jar" = some derived ∧ SpellsSuffix ".jAR" ∧
      Version.parse "1.0-rc-3+b-4.x" = .ok v ∧ StartsWithNumber "1.0-rc-3+b-4.x".toList ∧
      ofFileName? "my.thing.jAR" = some ⟨"my.thing", none⟩ ∧
      ofFileName? "my.thing-1.0-rc-3+b-4.x.jAR" = some ⟨"my.thing", some v⟩ ∧
      v.text = "1.0-rc-3+b-4.x" := by
  intro derived v
  have hderived : ofFileName? "my_thing-2.jar" = some derived := by decide +kernel
  have hending : SpellsSuffix ".jAR" := by decide
  have hparse : Version.parse "1.0-rc-3+b-4.x" = .ok v := by decide +kernel
  have hnumber : StartsWithNumber "1.0-rc-3+b-4.x".toList := by decide
  have hwritten : "my.thing" ++ "-" ++ "1.0-rc-3+b-4.x" ++ ".jAR" =
      "my.thing-1.0-rc-3+b-4.x.jAR" := by decide +kernel
  obtain ⟨hname, hversion⟩ := ofFileName?_written hderived hending
  exact ⟨hderived, hending, hparse, hnumber, hname, hwritten ▸ hversion _ v hparse hnumber⟩

end ModuleSearch.DerivedName
