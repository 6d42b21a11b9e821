import ModuleSearch.Proofs.Automatic.DerivedName
import ModuleSearch.Proofs.ByteOrder

/-!
# How a file name is read

A file name has a stem, which is what stands before the suffix `.jar`. The stem is divided at the
first hyphen with a number after it (`IsSplit`), and what stands before that hyphen falls into words
(`IsWords`). These parts are there for every file name in one way only, and they determine what is
derived from it: `ofFileName?_parts`.
-/

namespace ModuleSearch.DerivedName

variable {text : List Char} {others : List (List Char)}

/-! ## The stem -/

/-- A spelling of the suffix in upper and lower case letters. -/
def SpellsSuffix (ending : String) : Prop := ending.toList.map Char.toLower = suffix

instance (ending : String) : Decidable (SpellsSuffix ending) :=
  inferInstanceAs (Decidable (ending.toList.map Char.toLower = suffix))

/-- What stands before the last bytes of a file name if these spell the suffix, and else the whole
file name. -/
inductive IsStem (fileName : String) : String → Prop
  | cut {stem ending : String} (hending : SpellsSuffix ending)
      (hbytes : utf8 fileName = utf8 stem ++ utf8 ending) : IsStem fileName stem
  | whole (h : ∀ (front : List UInt8) (ending : String), SpellsSuffix ending →
      utf8 fileName ≠ front ++ utf8 ending) : IsStem fileName fileName

theorem toNat_lt_of_toLower {c : Char} (h : c.toLower.toNat < 128) : c.toNat < 128 := by
  by_contra hhigh
  have hupper : ¬ (c.val ≥ 'A'.val ∧ c.val ≤ 'Z'.val) := by
    rintro ⟨-, hz⟩
    have hle : c.toNat ≤ 90 := UInt32.le_iff_toNat_le.mp hz
    omega
  have heq : c.toLower = c := dif_neg hupper
  exact hhigh (heq ▸ h)

theorem SpellsSuffix.isAscii {ending : String} (h : SpellsSuffix ending) :
    ∀ c ∈ ending.toList, c.toNat < 128 := by
  intro c hc
  have hmem : c.toLower ∈ suffix := h ▸ List.mem_map_of_mem hc
  have hsuffix : ∀ d ∈ suffix, d.toNat < 128 := by simp [suffix]
  exact toNat_lt_of_toLower (hsuffix _ hmem)

theorem dropSuffix_append {ending : List Char} (h : ending.map Char.toLower = suffix)
    (stem : List Char) : dropSuffix (stem ++ ending) = stem := by
  have hlength : ending.length = suffix.length := by rw [← h, List.length_map]
  rw [dropSuffix, List.length_append, hlength, Nat.add_sub_cancel, List.drop_left, List.take_left,
    if_pos h]

theorem dropSuffix_eq_self {fileName : String} (h : ∀ (front : List UInt8) (ending : String),
    SpellsSuffix ending → utf8 fileName ≠ front ++ utf8 ending) :
    dropSuffix fileName.toList = fileName.toList := by
  rw [dropSuffix, if_neg]
  intro hspells
  let stem := fileName.toList.length - suffix.length
  refine h (utf8 (.ofList (fileName.toList.take stem))) (.ofList (fileName.toList.drop stem)) ?_ ?_
  · rwa [SpellsSuffix, String.toList_ofList]
  · rw [← utf8_append, ← String.ofList_append, List.take_append_drop, String.ofList_toList]

theorem isStem_iff {fileName stem : String} :
    IsStem fileName stem ↔ String.ofList (dropSuffix fileName.toList) = stem := by
  constructor
  · intro h
    cases h with
    | cut hending hbytes =>
        rw [← utf8_append] at hbytes
        obtain rfl := utf8_injective hbytes
        rw [String.toList_append, dropSuffix_append hending, String.ofList_toList]
    | whole h => rw [dropSuffix_eq_self h, String.ofList_toList]
  · rintro rfl
    by_cases hspells : ∃ front ending, SpellsSuffix ending ∧ utf8 fileName = front ++ utf8 ending
    · obtain ⟨front, ending, hending, hbytes⟩ := hspells
      obtain ⟨stem, rfl⟩ := exists_eq_append_of_utf8_eq hbytes hending.isAscii
      rw [String.toList_append, dropSuffix_append hending, String.ofList_toList]
      exact .cut hending (utf8_append stem ending)
    · have hwhole : ∀ (front : List UInt8) (ending : String), SpellsSuffix ending →
          utf8 fileName ≠ front ++ utf8 ending :=
        fun front ending hending hbytes => hspells ⟨front, ending, hending, hbytes⟩
      rw [dropSuffix_eq_self hwhole, String.ofList_toList]
      exact .whole hwhole

/-! ## The name part -/

/-- Digits, and then a dot or the end. -/
def StartsWithNumber (text : List Char) : Prop :=
  ∃ digits rest, text = digits ++ rest ∧ digits ≠ [] ∧ (∀ c ∈ digits, c.isDigit = true) ∧
    (rest = [] ∨ ∃ after, rest = '.' :: after)

/-- The name part and the version text of a stem: it is divided at the first hyphen that a number
follows. -/
inductive IsSplit : List Char → List Char → Option (List Char) → Prop
  | marked {before after : List Char} (hnumber : StartsWithNumber after)
      (hleast : ∀ before' after', before ++ '-' :: after = before' ++ '-' :: after' →
        StartsWithNumber after' → before.length ≤ before'.length) :
      IsSplit (before ++ '-' :: after) before (some after)
  | unmarked {stem : List Char} (h : ∀ before after, stem = before ++ '-' :: after →
      ¬ StartsWithNumber after) : IsSplit stem stem none

theorem startsWithNumber_iff : startsWithNumber text = true ↔ StartsWithNumber text := by
  constructor
  · intro h
    have hdigits : ∀ c ∈ text.takeWhile Char.isDigit, c.isDigit = true :=
      List.all_eq_true.mp List.all_takeWhile
    have hsplit := List.takeWhile_append_dropWhile (p := Char.isDigit) (l := text)
    rw [startsWithNumber] at h
    split at h
    · cases h
    · rename_i hdrop hne
      exact ⟨_, _, hsplit.symm, hne, hdigits, .inl hdrop⟩
    · rename_i c after hdrop hne
      exact ⟨_, _, hsplit.symm, hne, hdigits, .inr ⟨after, by rw [hdrop, eq_of_beq h]⟩⟩
  · rintro ⟨digits, rest, rfl, hne, hdigits, hrest⟩
    obtain ⟨d, digits, rfl⟩ := List.exists_cons_of_ne_nil hne
    rw [startsWithNumber, List.takeWhile_append_of_pos hdigits,
      List.dropWhile_append_of_pos hdigits]
    rcases hrest with rfl | ⟨after, rfl⟩ <;> rfl

instance (text : List Char) : Decidable (StartsWithNumber text) :=
  decidable_of_iff _ startsWithNumber_iff

theorem IsSplit.split_eq {stem name : List Char} {version : Option (List Char)}
    (h : IsSplit stem name version) : split stem = (name, version) := by
  cases h with
  | @marked _ after hnumber hleast =>
      -- on the name part: a number after one of its hyphens would be an earlier one
      induction name with
      | nil => rw [List.nil_append, split, if_pos ⟨rfl, startsWithNumber_iff.mpr hnumber⟩]
      | cons c name ih =>
          have hmark : ¬ (c = '-' ∧ startsWithNumber (name ++ '-' :: after) = true) := by
            rintro ⟨rfl, hn⟩
            exact absurd (hleast [] _ rfl (startsWithNumber_iff.mp hn)) (by simp)
          rw [List.cons_append, split, if_neg hmark, ih]
          intro before' after' heq hnumber'
          exact Nat.le_of_succ_le_succ
            (hleast (c :: before') after' (congrArg (c :: ·) heq) hnumber')
  | unmarked h =>
      induction stem with
      | nil => rfl
      | cons c rest ih =>
          have hmark : ¬ (c = '-' ∧ startsWithNumber rest = true) := by
            rintro ⟨rfl, hn⟩
            exact h [] rest rfl (startsWithNumber_iff.mp hn)
          rw [split, if_neg hmark, ih]
          exact fun before after heq => h (c :: before) after (congrArg (c :: ·) heq)

/-- A character before the first number leaves the rest divided as it is. -/
theorem IsSplit.cons {c : Char} {rest name : List Char} {version : Option (List Char)}
    (hmark : ¬ (c = '-' ∧ StartsWithNumber rest)) (h : IsSplit rest name version) :
    IsSplit (c :: rest) (c :: name) version := by
  cases h with
  | marked hnumber hleast =>
      refine @IsSplit.marked (c :: name) _ hnumber fun before' after' heq hnumber' => ?_
      cases before' with
      | nil =>
          obtain ⟨rfl, rfl⟩ := List.cons.inj heq
          exact absurd ⟨rfl, hnumber'⟩ hmark
      | cons d before' =>
          exact Nat.succ_le_succ (hleast before' after' (List.cons.inj heq).2 hnumber')
  | unmarked h =>
      refine .unmarked fun before after heq hnumber => ?_
      cases before with
      | nil =>
          obtain ⟨rfl, rfl⟩ := List.cons.inj heq
          exact hmark ⟨rfl, hnumber⟩
      | cons d before => exact h before after (List.cons.inj heq).2 hnumber

theorem isSplit_split (stem : List Char) : IsSplit stem (split stem).1 (split stem).2 := by
  induction stem with
  | nil => exact .unmarked (by simp)
  | cons c rest ih =>
      rw [split]
      split
      · rename_i hmark
        obtain ⟨rfl, hnumber⟩ := hmark
        exact @IsSplit.marked [] rest (startsWithNumber_iff.mp hnumber) fun _ _ _ _ => Nat.zero_le _
      · rename_i hmark
        exact ih.cons fun ⟨hc, hnumber⟩ => hmark ⟨hc, startsWithNumber_iff.mpr hnumber⟩

theorem isSplit_iff {stem name : List Char} {version : Option (List Char)} :
    IsSplit stem name version ↔ split stem = (name, version) := by
  refine ⟨IsSplit.split_eq, fun h => ?_⟩
  have hsplit := isSplit_split stem
  rwa [h] at hsplit

/-! ## Words -/

/-- The maximal runs of letters and digits of a text, one after the other. -/
inductive IsWords : List Char → List (List Char) → Prop
  | none {text : List Char} (h : ∀ c ∈ text, c.isAlphanum = false) : IsWords text []
  | word {gap word rest : List Char} {others : List (List Char)}
      (hgap : ∀ c ∈ gap, c.isAlphanum = false) (hne : word ≠ [])
      (hword : ∀ c ∈ word, c.isAlphanum = true) (hend : ∀ c ∈ rest.head?, c.isAlphanum = false)
      (hrest : IsWords rest others) : IsWords (gap ++ word ++ rest) (word :: others)

theorem words_cons_of_gap {c : Char} (h : c.isAlphanum = false) (text : List Char) :
    words (c :: text) = words text := by
  rw [words, List.splitOnP_cons_eq_if_modifyHead, if_pos (by simp [h])]
  rfl

theorem words_append_of_gap {gap : List Char} (h : ∀ c ∈ gap, c.isAlphanum = false)
    (text : List Char) : words (gap ++ text) = words text := by
  induction gap with
  | nil => rfl
  | cons c gap ih =>
      obtain ⟨hc, hgap⟩ := List.forall_mem_cons.mp h
      rw [List.cons_append, words_cons_of_gap hc, ih hgap]

theorem words_append_of_word {word rest : List Char} (hne : word ≠ [])
    (hword : ∀ c ∈ word, c.isAlphanum = true) (hend : ∀ c ∈ rest.head?, c.isAlphanum = false) :
    words (word ++ rest) = word :: words rest := by
  have hplain : ∀ c ∈ word, (!c.isAlphanum) = false := by simpa using hword
  cases rest with
  | nil =>
      rw [List.append_nil, words, List.splitOnP_eq_singleton hplain]
      simp [words, hne]
  | cons c rest =>
      have hc : c.isAlphanum = false := hend c rfl
      rw [words_cons_of_gap hc, words,
        List.splitOnP_append_cons_of_forall_mem hplain c (by simp [hc]),
        List.filter_cons_of_pos (by simpa using hne)]
      rfl

theorem IsWords.words_eq (h : IsWords text others) : words text = others := by
  induction h with
  | @none text h =>
      rw [← List.append_nil text, words_append_of_gap h]
      rfl
  | word hgap hne hword hend _ ih =>
      rw [List.append_assoc, words_append_of_gap hgap, words_append_of_word hne hword hend, ih]

theorem IsWords.cons_of_gap {c : Char} (hc : c.isAlphanum = false) (h : IsWords text others) :
    IsWords (c :: text) others := by
  cases h with
  | none h => exact .none (List.forall_mem_cons.mpr ⟨hc, h⟩)
  | @word gap _ _ _ hgap hne hword hend hrest =>
      have hgap : ∀ d ∈ c :: gap, d.isAlphanum = false := List.forall_mem_cons.mpr ⟨hc, hgap⟩
      exact @IsWords.word (c :: gap) _ _ _ hgap hne hword hend hrest

/-- A letter or digit at the front makes the first word longer, or is one of its own. -/
theorem exists_isWords_cons {c : Char} (hc : c.isAlphanum = true) (h : IsWords text others) :
    ∃ found, IsWords (c :: text) found := by
  have hsingle : ∀ d ∈ [c], d.isAlphanum = true := by simpa using hc
  have hnew : (∀ d ∈ text.head?, d.isAlphanum = false) → ∃ found, IsWords (c :: text) found :=
    fun hend => ⟨_, @IsWords.word [] [c] text _ (by simp) (List.cons_ne_nil c []) hsingle hend h⟩
  cases h with
  | none h => exact hnew fun d hd => h d (List.mem_of_mem_head? hd)
  | @word gap word rest _ hgap hne hword hend hrest =>
      cases gap with
      | nil =>
          exact ⟨_, @IsWords.word [] (c :: word) rest _ (by simp) (List.cons_ne_nil c word)
            (List.forall_mem_cons.mpr ⟨hc, hword⟩) hend hrest⟩
      | cons d gap => exact hnew fun e he => hgap e (by simp_all)

theorem isWords_iff : IsWords text others ↔ words text = others := by
  refine ⟨IsWords.words_eq, ?_⟩
  rintro rfl
  obtain ⟨found, hfound⟩ : ∃ found, IsWords text found := by
    induction text with
    | nil => exact ⟨[], .none (by simp)⟩
    | cons c rest ih =>
        obtain ⟨found, hfound⟩ := ih
        cases hc : c.isAlphanum with
        | false => exact ⟨found, hfound.cons_of_gap hc⟩
        | true => exact exists_isWords_cons hc hfound
  rwa [hfound.words_eq]

theorem words_eq_nil_iff : words text = [] ↔ ∀ c ∈ text, c.isAlphanum = false := by
  rw [← isWords_iff]
  constructor
  · rintro ⟨h⟩
    exact h
  · exact .none

/-! ## What is derived from a file name -/

/-- What a file name is divided into. -/
structure Parts where
  stem : String
  name : List Char
  version : Option (List Char)
  words : List (List Char)

structure Parts.Of (p : Parts) (fileName : String) : Prop where
  stem : IsStem fileName p.stem
  split : IsSplit p.stem.toList p.name p.version
  words : IsWords p.name p.words

/-- The name is made of the words, and is legal; the version is the one that the version text is
read as, if it is one. -/
structure Parts.Gives (p : Parts) (derived : DerivedName) : Prop where
  name_eq : derived.name = String.ofList (['.'].intercalate p.words)
  isModuleName : Name.isModuleName derived.name = true
  version_iff : ∀ v, derived.version = some v ↔
    ∃ text ∈ p.version, Version.parse (String.ofList text) = .ok v

def partsOf (fileName : String) : Parts where
  stem := String.ofList (dropSuffix fileName.toList)
  name := (split (dropSuffix fileName.toList)).1
  version := (split (dropSuffix fileName.toList)).2
  words := words (split (dropSuffix fileName.toList)).1

theorem Parts.of_iff {p : Parts} {fileName : String} : p.Of fileName ↔ partsOf fileName = p := by
  constructor
  · rintro ⟨hstem, hsplit, hwords⟩
    rw [isStem_iff] at hstem
    rw [isSplit_iff, ← hstem, String.toList_ofList] at hsplit
    rw [isWords_iff] at hwords
    rw [partsOf, hsplit, hwords, hstem]
  · rintro rfl
    refine ⟨isStem_iff.mpr rfl, isSplit_iff.mpr ?_, isWords_iff.mpr rfl⟩
    rw [partsOf, String.toList_ofList]

theorem Parts.of_partsOf (fileName : String) : (partsOf fileName).Of fileName :=
  Parts.of_iff.mpr rfl

theorem Parts.Gives.unique {p : Parts} {derived other : DerivedName} (h : p.Gives derived)
    (h' : p.Gives other) : derived = other := by
  have hversion : derived.version = other.version :=
    Option.ext fun v => (h.version_iff v).trans (h'.version_iff v).symm
  obtain ⟨name, version⟩ := derived
  obtain ⟨name', version'⟩ := other
  rw [DerivedName.mk.injEq]
  exact ⟨h.name_eq.trans h'.name_eq.symm, hversion⟩

def Parts.derived (p : Parts) : DerivedName where
  name := String.ofList (['.'].intercalate p.words)
  version := p.version.bind fun text => Version.parse? (String.ofList text)

variable {p : Parts} {fileName : String}

theorem Parts.Of.gives_derived (h : p.Of fileName) (hwords : p.words ≠ []) :
    p.Gives p.derived := by
  obtain rfl := Parts.of_iff.mp h
  refine ⟨rfl, isModuleName_normalize hwords, fun v => ?_⟩
  simp only [Parts.derived, Option.bind_eq_some_iff, Version.parse?_eq_some_iff, Option.mem_def]

theorem Parts.Of.ofFileName?_eq (h : p.Of fileName) :
    ofFileName? fileName = if p.words = [] then none else some p.derived := by
  obtain rfl := Parts.of_iff.mp h
  have hempty : (normalize (partsOf fileName).name).isEmpty = true ↔
      (partsOf fileName).words = [] := List.isEmpty_iff.trans normalize_eq_nil_iff
  change (if (normalize (partsOf fileName).name).isEmpty = true then none else _) = _
  simp only [hempty]
  rfl

/-- A file name has its parts in one way only. Nothing is derived from it exactly if there is no
letter and no digit in the name part. -/
theorem ofFileName?_parts (fileName : String) :
    ∃ p : Parts, (∀ q : Parts, q.Of fileName ↔ q = p) ∧
      (ofFileName? fileName = none ↔ ∀ c ∈ p.name, c.isAlphanum = false) ∧
      ∀ derived, ofFileName? fileName = some derived ↔
        (∃ c ∈ p.name, c.isAlphanum = true) ∧ p.Gives derived := by
  have hparts := Parts.of_partsOf fileName
  have hnone : (partsOf fileName).words = [] ↔
      ∀ c ∈ (partsOf fileName).name, c.isAlphanum = false := words_eq_nil_iff
  have hsome : (partsOf fileName).words ≠ [] ↔
      ∃ c ∈ (partsOf fileName).name, c.isAlphanum = true := by simp [hnone]
  refine ⟨partsOf fileName, fun q => Parts.of_iff.trans eq_comm, ?_, fun derived => ?_⟩
  · rw [hparts.ofFileName?_eq, ← hnone]
    simp
  · rw [hparts.ofFileName?_eq, Option.ite_none_left_eq_some, ← hsome]
    refine and_congr_right fun hwords => ?_
    have hgives := hparts.gives_derived hwords
    rw [Option.some.injEq]
    exact ⟨fun heq => heq ▸ hgives, hgives.unique⟩

/-- Hyphens before the first number separate words, and those behind it belong to the version. -/
example : ofFileName? "my--thing_1-2b-3-x.JAR" = some ⟨"my.thing.1.2b.3.x", none⟩ ∧
    ofFileName? "my--thing_1-2b-3.0-x.JAR" = some ⟨"my.thing.1.2b",
      some ⟨"3.0-x", [.number ['3'], .number ['0']], [.text ['x']], []⟩⟩ := by
  decide +kernel

end ModuleSearch.DerivedName
