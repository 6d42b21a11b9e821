import Mathlib.Data.List.SplitBy
import ModuleSearch.Proofs.Except
import ModuleSearch.Version

/-!
# The tokens of a version

What reading a version can give: every token is a run of digits without leading zeros, or a run of
other characters, and no run is empty (`wellFormed_of_parse`).
-/

namespace ModuleSearch

namespace VersionToken

/-- What a piece between separators is cut into. -/
inductive WellFormed : VersionToken → Prop
  | number {digits : List Char} (hne : digits ≠ []) (hdigits : ∀ c ∈ digits, c.isDigit = true)
      (hzero : digits.head? = some '0' → digits = ['0']) : WellFormed (number digits)
  | text {chars : List Char} (hne : chars ≠ []) (hchars : ∀ c ∈ chars, c.isDigit = false) :
      WellFormed (text chars)

theorem wellFormed_ofDigits {digits : List Char} (h : ∀ c ∈ digits, c.isDigit = true) :
    (ofDigits digits).WellFormed := by
  rw [ofDigits]
  cases hdrop : digits.dropWhile (· == '0') with
  | nil => exact .number (by simp) (by simp) (by simp)
  | cons c rest =>
      have hsub : ∀ d ∈ c :: rest, d ∈ digits := by
        intro d hd
        rw [← hdrop] at hd
        exact (List.dropWhile_sublist _).subset hd
      refine .number (by simp) (fun d hd => h d (hsub d hd)) ?_
      intro hzero
      have hhead := List.head?_dropWhile_not (· == '0') digits
      simp_all

/-- Neighbours in a run are of one kind, so all of its characters are. -/
theorem isDigit_eq_of_isChain {c : Char} {run : List Char}
    (h : (c :: run).IsChain fun a b => (a.isDigit == b.isDigit) = true) :
    ∀ d ∈ c :: run, d.isDigit = c.isDigit := by
  induction run generalizing c with
  | nil => simp
  | cons b run ih =>
      obtain ⟨hcb, hrest⟩ := List.isChain_cons_cons.mp h
      have hb : c.isDigit = b.isDigit := by simpa using hcb
      intro d hd
      rcases List.mem_cons.mp hd with rfl | hd
      · rfl
      · rw [hb]
        exact ih hrest d hd

theorem wellFormed_ofRun {run : List Char} (hne : run ≠ [])
    (h : run.IsChain fun a b => (a.isDigit == b.isDigit) = true) : (ofRun run).WellFormed := by
  cases run with
  | nil => exact absurd rfl hne
  | cons c rest =>
      have hkind := isDigit_eq_of_isChain h
      rw [ofRun]
      cases hc : c.isDigit with
      | true =>
          have hall : ∀ d ∈ c :: rest, d.isDigit = true := fun d hd => (hkind d hd).trans hc
          rw [if_pos (List.all_eq_true.mpr hall)]
          exact wellFormed_ofDigits hall
      | false =>
          rw [if_neg (by simp [hc])]
          exact .text hne fun d hd => (hkind d hd).trans hc

end VersionToken

namespace Version

theorem wellFormed_of_mem_pieceTokens {piece : List Char} {t : VersionToken}
    (h : t ∈ pieceTokens piece) : t.WellFormed := by
  obtain ⟨run, hrun, rfl⟩ := List.mem_map.mp h
  exact VersionToken.wellFormed_ofRun (List.ne_nil_of_mem_splitBy hrun)
    (List.isChain_of_mem_splitBy hrun)

theorem wellFormed_of_tokensOr {reason : VersionError.Reason} {separates : Char → Bool}
    {part : List Char} {tokens : List VersionToken}
    (h : tokensOr reason separates part = .ok tokens) : ∀ t ∈ tokens, t.WellFormed := by
  rw [tokensOr, tokens?] at h
  by_cases hempty : (part.splitOnP separates).any List.isEmpty = true
  · simp [hempty] at h
  · obtain rfl : (part.splitOnP separates).flatMap pieceTokens = tokens := by
      simpa [hempty] using h
    intro t ht
    obtain ⟨piece, -, hpiece⟩ := List.mem_flatMap.mp ht
    exact wellFormed_of_mem_pieceTokens hpiece

theorem wellFormed_of_preReleaseTokens {part : Option (List Char)} {tokens : List VersionToken}
    (h : preReleaseTokens part = .ok tokens) : ∀ t ∈ tokens, t.WellFormed := by
  match part with
  | none =>
      obtain rfl : [] = tokens := by simpa [preReleaseTokens] using h
      simp
  | some [] => simp [preReleaseTokens] at h
  | some (c :: rest) => exact wellFormed_of_tokensOr h

theorem wellFormed_of_buildTokens {part : Option (List Char)} {tokens : List VersionToken}
    (h : buildTokens part = .ok tokens) : ∀ t ∈ tokens, t.WellFormed := by
  match part with
  | none =>
      obtain rfl : [] = tokens := by simpa [buildTokens] using h
      simp
  | some [] => simp [buildTokens] at h
  | some (c :: rest) =>
      simp only [buildTokens] at h
      split at h
      · cases h
      · exact wellFormed_of_tokensOr h

/-- A text is read as a version if it starts with a digit and its parts are read as the parts of
the version. -/
theorem parseChars_eq_ok_iff {text : String} {chars : List Char} {v : Version} :
    parseChars text chars = .ok v ↔ startsWithDigit chars = .ok () ∧ v.text = text ∧
      tokensOr .emptyToken separatesSequence (Text.cut '-' (Text.cut '+' chars).1).1 =
        .ok v.sequence ∧
      preReleaseTokens (Text.cut '-' (Text.cut '+' chars).1).2 = .ok v.preRelease ∧
      buildTokens (Text.cut '+' chars).2 = .ok v.build := by
  simp only [parseChars, bind_eq_ok_iff]
  constructor
  · rintro ⟨_, hdigit, sequence, hsequence, preRelease, hpreRelease, build, hbuild, h⟩
    cases h
    exact ⟨hdigit, rfl, hsequence, hpreRelease, hbuild⟩
  · rintro ⟨hdigit, rfl, hsequence, hpreRelease, hbuild⟩
    exact ⟨(), hdigit, _, hsequence, _, hpreRelease, _, hbuild, rfl⟩

structure WellFormed (v : Version) : Prop where
  sequence : ∀ t ∈ v.sequence, t.WellFormed
  preRelease : ∀ t ∈ v.preRelease, t.WellFormed
  build : ∀ t ∈ v.build, t.WellFormed

theorem wellFormed_of_parse {text : String} {v : Version} (h : parse text = .ok v) :
    v.WellFormed := by
  obtain ⟨-, -, hsequence, hpreRelease, hbuild⟩ :=
    parseChars_eq_ok_iff.mp (mapError_eq_ok_iff.mp h)
  exact ⟨wellFormed_of_tokensOr hsequence, wellFormed_of_preReleaseTokens hpreRelease,
    wellFormed_of_buildTokens hbuild⟩

/-- A version keeps its text. -/
theorem text_of_parse {text : String} {v : Version} (h : parse text = .ok v) : v.text = text :=
  (parseChars_eq_ok_iff.mp (mapError_eq_ok_iff.mp h)).2.1

theorem parse?_eq_some_iff {text : String} {v : Version} :
    parse? text = some v ↔ parse text = .ok v := by
  rw [parse?]
  cases parse text <;> simp [Except.toOption]

end Version

end ModuleSearch
