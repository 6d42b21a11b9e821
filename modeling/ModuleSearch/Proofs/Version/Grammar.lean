import ModuleSearch.Proofs.Version.Runs

/-!
# The grammar of versions

A text is a version exactly if it starts with a digit, has at most one plus sign, and no separator
stands at its end or beside another one (`IsGrammatical`). The tokens of the version are those of
the runs of its text: `parse_grammar`.
-/

namespace ModuleSearch

namespace Version

variable {part text : List Char} {tokens : List VersionToken}

/-- No piece of a text is empty: it has something before, between and after its separators. -/
def IsWhole (text : List Char) : Prop := ∀ piece ∈ pieces text, piece ≠ []

/-- A text that starts with a digit, has at most one plus sign, and has no empty piece. -/
structure IsGrammatical (text : List Char) : Prop where
  digit : ∃ c ∈ text.head?, c.isDigit = true
  plus : text.count '+' ≤ 1
  whole : IsWhole text

instance (text : List Char) : Decidable (IsWhole text) :=
  inferInstanceAs (Decidable (∀ piece ∈ pieces text, piece ≠ []))

theorem isGrammatical_iff : IsGrammatical text ↔
    text.head?.any Char.isDigit = true ∧ text.count '+' ≤ 1 ∧ IsWhole text := by
  rw [Option.any_eq_true]
  exact ⟨fun ⟨hdigit, hplus, hwhole⟩ => ⟨hdigit, hplus, hwhole⟩,
    fun ⟨hdigit, hplus, hwhole⟩ => ⟨hdigit, hplus, hwhole⟩⟩

instance (text : List Char) : Decidable (IsGrammatical text) :=
  decidable_of_iff _ isGrammatical_iff.symm

theorem splitOnP_congr {p q : Char → Bool} (h : ∀ c ∈ text, p c = q c) :
    text.splitOnP p = text.splitOnP q := by
  induction text with
  | nil => simp
  | cons c rest ih =>
      obtain ⟨hc, hrest⟩ := List.forall_mem_cons.mp h
      rw [List.splitOnP_cons_eq_if_modifyHead, List.splitOnP_cons_eq_if_modifyHead, hc, ih hrest]

theorem tokensOr_eq_ok_iff {reason : VersionError.Reason} {separates : Char → Bool}
    (h : ∀ c ∈ part, separates c = isSeparator c) :
    tokensOr reason separates part = .ok tokens ↔
      IsWhole part ∧ (runsOfPart part).map VersionToken.ofRun = tokens := by
  have hpieces : part.splitOnP separates = pieces part := splitOnP_congr h
  have hwhole : IsWhole part ↔ (pieces part).any List.isEmpty = false := by simp [IsWhole]
  rw [tokensOr, tokens?, hpieces, hwhole, runsOfPart, List.map_flatMap]
  cases (pieces part).any List.isEmpty with
  | true => simp
  | false =>
      change Except.ok ((pieces part).flatMap pieceTokens) = .ok tokens ↔ _
      rw [Except.ok.injEq, eq_self, true_and]
      rfl

theorem not_isWhole_nil : ¬ IsWhole [] := by simp [IsWhole, pieces]

theorem isWhole_append_elim {sign : Char} (hsign : isSeparator sign = true) {before : List Char}
    {after : Option (List Char)} :
    IsWhole (before ++ after.elim [] (sign :: ·)) ↔
      IsWhole before ∧ ∀ part ∈ after, IsWhole part := by
  cases after with
  | none => simp
  | some part =>
      simp only [IsWhole, pieces, Option.elim_some, List.splitOnP_append_cons before part hsign,
        List.forall_mem_append, Option.mem_some_iff, forall_eq']

/-- A text is grammatical if its parts are whole and there is no plus sign in the build. -/
theorem Parts.Of.isGrammatical_iff {p : Parts} (h : p.Of text) :
    IsGrammatical text ↔ (∃ c ∈ text.head?, c.isDigit = true) ∧ IsWhole p.sequence ∧
      (∀ part ∈ p.preRelease, IsWhole part) ∧ ∀ part ∈ p.build, '+' ∉ part ∧ IsWhole part := by
  have hwhole : IsWhole text ↔ (IsWhole p.sequence ∧ ∀ part ∈ p.preRelease, IsWhole part) ∧
      ∀ part ∈ p.build, IsWhole part := by
    rw [h.text_eq, isWhole_append_elim rfl, Parts.release, isWhole_append_elim rfl]
  have hplus : text.count '+' ≤ 1 ↔ ∀ part ∈ p.build, '+' ∉ part := by
    rw [h.text_eq, List.count_append, List.count_eq_zero.mpr h.plus]
    cases p.build <;> simp [List.count_eq_zero]
  constructor
  · rintro ⟨hdigit, hcount, hpieces⟩
    obtain ⟨⟨hsequence, hpreRelease⟩, hbuild⟩ := hwhole.mp hpieces
    exact ⟨hdigit, hsequence, hpreRelease, fun part hpart => ⟨hplus.mp hcount part hpart,
      hbuild part hpart⟩⟩
  · rintro ⟨hdigit, hsequence, hpreRelease, hbuild⟩
    exact ⟨hdigit, hplus.mpr fun part hpart => (hbuild part hpart).1,
      hwhole.mpr ⟨⟨hsequence, hpreRelease⟩, fun part hpart => (hbuild part hpart).2⟩⟩

theorem startsWithDigit_eq_ok_iff :
    startsWithDigit text = .ok () ↔ ∃ c ∈ text.head?, c.isDigit = true := by
  cases text with
  | nil => simp [startsWithDigit]
  | cons c rest => cases hc : c.isDigit <;> simp [startsWithDigit, hc]

theorem separatesSequence_eq (hhyphen : '-' ∉ part) (hplus : '+' ∉ part) :
    ∀ c ∈ part, separatesSequence c = isSeparator c := by
  intro c hc
  have hminus : (c == '-') = false := beq_false_of_ne (ne_of_mem_of_not_mem hc hhyphen)
  have hadd : (c == '+') = false := beq_false_of_ne (ne_of_mem_of_not_mem hc hplus)
  rw [isSeparator, hminus, hadd, Bool.or_false, Bool.or_false, separatesSequence]

theorem separatesPart_eq (hplus : '+' ∉ part) : ∀ c ∈ part, separatesPart c = isSeparator c := by
  intro c hc
  have hadd : (c == '+') = false := beq_false_of_ne (ne_of_mem_of_not_mem hc hplus)
  rw [isSeparator, hadd, Bool.or_false, separatesPart]

/-- The tokens of a part, none if it is missing. -/
def tokensOf (part : Option (List Char)) : List VersionToken :=
  ((part.map runsOfPart).getD []).map VersionToken.ofRun

@[simp] theorem tokensOf_none : tokensOf none = [] := rfl

@[simp] theorem tokensOf_some (part : List Char) :
    tokensOf (some part) = (runsOfPart part).map VersionToken.ofRun := rfl

theorem preReleaseTokens_eq_ok_iff {preRelease : Option (List Char)}
    (hplus : ∀ part ∈ preRelease, '+' ∉ part) :
    preReleaseTokens preRelease = .ok tokens ↔
      (∀ part ∈ preRelease, IsWhole part) ∧ tokensOf preRelease = tokens := by
  match preRelease with
  | none => simp [preReleaseTokens]
  | some [] => simp [preReleaseTokens, not_isWhole_nil]
  | some (c :: rest) =>
      simpa [preReleaseTokens] using tokensOr_eq_ok_iff (separatesPart_eq (hplus _ rfl))

theorem buildTokens_eq_ok_iff {build : Option (List Char)} :
    buildTokens build = .ok tokens ↔
      (∀ part ∈ build, '+' ∉ part ∧ IsWhole part) ∧ tokensOf build = tokens := by
  match build with
  | none => simp [buildTokens]
  | some [] => simp [buildTokens, not_isWhole_nil]
  | some (c :: rest) =>
      by_cases hplus : '+' ∈ c :: rest
      · simp [buildTokens, hplus]
      · simpa [buildTokens, hplus] using tokensOr_eq_ok_iff (separatesPart_eq hplus)

/-- The version of a text with these runs. -/
def ofRuns (text : String) (r : Runs) : Version where
  text := text
  sequence := r.sequence.map VersionToken.ofRun
  preRelease := (r.preRelease.getD []).map VersionToken.ofRun
  build := (r.build.getD []).map VersionToken.ofRun

theorem ofRuns_eq_iff {text : String} {r : Runs} {v : Version} :
    ofRuns text r = v ↔ v.text = text ∧ r.sequence.map VersionToken.ofRun = v.sequence ∧
      (r.preRelease.getD []).map VersionToken.ofRun = v.preRelease ∧
      (r.build.getD []).map VersionToken.ofRun = v.build := by
  cases v
  rw [ofRuns, Version.mk.injEq, eq_comm (a := text)]

theorem parse_eq_ok_iff {text : String} {v : Version} :
    parse text = .ok v ↔ IsGrammatical text.toList ∧ ofRuns text (runsOf text.toList) = v := by
  have hparts := Parts.of_partsOf text.toList
  obtain ⟨hsequence, hpreRelease⟩ := Parts.plus_not_mem_release_iff.mp hparts.plus
  rw [parse, mapError_eq_ok_iff, parseChars_eq_ok_iff, hparts.isGrammatical_iff, ofRuns_eq_iff]
  change _ ∧ _ ∧ tokensOr _ _ (partsOf text.toList).sequence = _ ∧
    preReleaseTokens (partsOf text.toList).preRelease = _ ∧
    buildTokens (partsOf text.toList).build = _ ↔ _
  rw [startsWithDigit_eq_ok_iff, tokensOr_eq_ok_iff (separatesSequence_eq hparts.hyphen hsequence),
    preReleaseTokens_eq_ok_iff hpreRelease, buildTokens_eq_ok_iff, runsOf, tokensOf, tokensOf]
  tauto

/-- A text with these parts is read as their tokens. -/
theorem Parts.Of.parse_eq_ok_iff {text : String} {p : Parts} {v : Version} (h : p.Of text.toList) :
    parse text = .ok v ↔ IsGrammatical text.toList ∧
      ⟨text, tokensOf (some p.sequence), tokensOf p.preRelease, tokensOf p.build⟩ = v := by
  obtain rfl := Parts.of_iff.mp h
  exact Version.parse_eq_ok_iff

/-! ## The grammar -/

/-- The tokens of a version are those of the runs. -/
structure Runs.ReadAs (r : Runs) (v : Version) : Prop where
  sequence : List.Forall₂ VersionToken.Reads r.sequence v.sequence
  preRelease : List.Forall₂ VersionToken.Reads (r.preRelease.getD []) v.preRelease
  build : List.Forall₂ VersionToken.Reads (r.build.getD []) v.build

/-- What a version says of its text: its tokens are those of the runs of the text, it is a
pre-release if a hyphen stands before any plus sign, and it is shown as the text. -/
structure Decomposes (v : Version) (text : String) : Prop where
  tokens : ∃ r : Runs, r.Of text.toList ∧ r.ReadAs v
  isPreRelease : v.isPreRelease = true ↔
    ∃ before after, text.toList = before ++ '-' :: after ∧ '+' ∉ before
  text_eq : v.text = text
  toString_eq : toString v = text

theorem reads_iff_of_mem_runsOfPart {run : List Char} (h : run ∈ runsOfPart part)
    (t : VersionToken) : VersionToken.Reads run t ↔ VersionToken.ofRun run = t := by
  obtain ⟨piece, -, hrun⟩ := List.mem_flatMap.mp h
  have hruns := isRuns_runsOfPiece piece
  constructor
  · exact VersionToken.Reads.ofRun_eq
  · rintro rfl
    exact VersionToken.reads_ofRun (hruns.ne_nil run hrun) (hruns.uniform run hrun)

theorem forall₂_reads_iff : List.Forall₂ VersionToken.Reads (runsOfPart part) tokens ↔
    (runsOfPart part).map VersionToken.ofRun = tokens :=
  forall₂_eq_map_iff fun _ h => reads_iff_of_mem_runsOfPart h

theorem runsOfPart_nil : runsOfPart [] = [] := by simp [runsOfPart, pieces, runsOfPiece]

theorem forall₂_reads_getD_iff {part : Option (List Char)} :
    List.Forall₂ VersionToken.Reads ((part.map runsOfPart).getD []) tokens ↔
      ((part.map runsOfPart).getD []).map VersionToken.ofRun = tokens := by
  cases part with
  | none => rw [Option.map_none, Option.getD_none, ← runsOfPart_nil, forall₂_reads_iff]
  | some part => exact forall₂_reads_iff

theorem readAs_runsOf_iff {v : Version} : (runsOf text).ReadAs v ↔
    (runsOf text).sequence.map VersionToken.ofRun = v.sequence ∧
      ((runsOf text).preRelease.getD []).map VersionToken.ofRun = v.preRelease ∧
      ((runsOf text).build.getD []).map VersionToken.ofRun = v.build := by
  constructor
  · rintro ⟨hsequence, hpreRelease, hbuild⟩
    exact ⟨forall₂_reads_iff.mp hsequence, forall₂_reads_getD_iff.mp hpreRelease,
      forall₂_reads_getD_iff.mp hbuild⟩
  · rintro ⟨hsequence, hpreRelease, hbuild⟩
    exact ⟨forall₂_reads_iff.mpr hsequence, forall₂_reads_getD_iff.mpr hpreRelease,
      forall₂_reads_getD_iff.mpr hbuild⟩

theorem ofRuns_runsOf_eq_iff {text : String} {v : Version} :
    ofRuns text (runsOf text.toList) = v ↔ v.text = text ∧ (runsOf text.toList).ReadAs v := by
  rw [ofRuns_eq_iff, readAs_runsOf_iff]

theorem runsOfPart_ne_nil (h : IsWhole part) : runsOfPart part ≠ [] := by
  obtain ⟨piece, hpiece⟩ := List.exists_mem_of_ne_nil _ (List.splitOnP_ne_nil isSeparator part)
  have hruns : runsOfPiece piece ≠ [] := List.splitBy_ne_nil.mpr (h piece hpiece)
  exact fun hnil => hruns (List.flatMap_eq_nil_iff.mp hnil piece hpiece)

theorem Parts.Of.isSome_preRelease_iff {p : Parts} (h : p.Of text) :
    p.preRelease.isSome = true ↔ ∃ before after, text = before ++ '-' :: after ∧ '+' ∉ before := by
  have hplus := (Parts.plus_not_mem_release_iff.mp h.plus).1
  constructor
  · intro hsome
    obtain ⟨part, hpart⟩ := Option.isSome_iff_exists.mp hsome
    refine ⟨p.sequence, part ++ p.build.elim [] ('+' :: ·), ?_, hplus⟩
    rw [h.text_eq, Parts.release, hpart, Option.elim_some, List.append_assoc, List.cons_append]
  · rintro ⟨before, after, htext, hbefore⟩
    -- up to its first plus sign the text is the release, and the hyphen stands there
    obtain ⟨hnot, hafter⟩ := cut_eq_iff.mp (Prod.eta (Text.cut '+' after)).symm
    have hcut : Text.cut '+' text =
        (before ++ '-' :: (Text.cut '+' after).1, (Text.cut '+' after).2) := by
      refine cut_eq_iff.mpr ⟨by simp [hbefore, hnot], ?_⟩
      rw [htext, List.append_assoc, List.cons_append, ← hafter]
    rw [cut_eq_iff.mpr ⟨h.plus, h.text_eq⟩] at hcut
    have hmem : '-' ∈ p.release := by simp [(Prod.mk.inj hcut).1]
    cases hpre : p.preRelease with
    | some part => rfl
    | none => exact absurd (by simpa [Parts.release, hpre] using hmem) h.hyphen

theorem IsGrammatical.ne_nil_of_mem_preRelease (h : IsGrammatical text) :
    ∀ runs ∈ (runsOf text).preRelease, runs ≠ [] := by
  have hwhole := ((Parts.of_partsOf text).isGrammatical_iff.mp h).2.2.1
  intro runs hruns
  obtain ⟨part, hpart, rfl⟩ := Option.map_eq_some_iff.mp hruns
  exact runsOfPart_ne_nil (hwhole part hpart)

theorem isPreRelease_ofRuns {s : String} (hgrammar : IsGrammatical s.toList) :
    (ofRuns s (runsOf s.toList)).isPreRelease = true ↔
      (partsOf s.toList).preRelease.isSome = true := by
  have hne := hgrammar.ne_nil_of_mem_preRelease
  rw [isPreRelease, ofRuns]
  cases hpre : (partsOf s.toList).preRelease with
  | none => simp [runsOf, hpre]
  | some part => simpa [runsOf, hpre] using hne

theorem decomposes_iff {text : String} {v : Version} (hgrammar : IsGrammatical text.toList) :
    v.Decomposes text ↔ ofRuns text (runsOf text.toList) = v := by
  constructor
  · rintro ⟨⟨r, hr, hread⟩, -, htext, -⟩
    obtain rfl := Runs.of_iff.mp hr
    exact ofRuns_runsOf_eq_iff.mpr ⟨htext, hread⟩
  · rintro rfl
    refine ⟨⟨_, Runs.of_iff.mpr rfl, (ofRuns_runsOf_eq_iff.mp rfl).2⟩, ?_, rfl, rfl⟩
    rw [isPreRelease_ofRuns hgrammar]
    exact (Parts.of_partsOf text.toList).isSome_preRelease_iff

/-- A text is read exactly if it is grammatical, and then as the version that decomposes it. -/
theorem parse_grammar (text : String) :
    ((∃ v, parse text = .ok v) ↔ IsGrammatical text.toList) ∧
      ∀ v, parse text = .ok v ↔ IsGrammatical text.toList ∧ v.Decomposes text := by
  constructor
  · simp only [parse_eq_ok_iff, exists_and_left, exists_eq', and_true]
  · intro v
    rw [parse_eq_ok_iff]
    exact and_congr_right fun hgrammar => (decomposes_iff hgrammar).symm

/-- A hyphen in the build separates tokens, and a hyphen beside a dot does not. -/
example : IsGrammatical "1.02+b-3".toList ∧ ¬ IsGrammatical "1.-2".toList := by decide +kernel

end Version

end ModuleSearch
