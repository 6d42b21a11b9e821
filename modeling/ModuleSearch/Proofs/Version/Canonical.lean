import ModuleSearch.Proofs.Version.Comparison

/-!
# The canonical text of a version

A version may be written in many ways: `1.02`, `01.2` and `1.2` are equal. The canonical text of a
version is written from its tokens alone, with a dot between two tokens of a part. It is read as the
same tokens (`parse_canonical`), so versions are equal exactly if they have one canonical text
(`canonical_of_parse`).
-/

namespace ModuleSearch

namespace VersionToken

variable {run : List Char} {t : VersionToken}

theorem WellFormed.reads (h : t.WellFormed) : Reads t.chars t := by
  cases h with
  | @number digits hne hdigits hzero =>
      obtain ⟨c, rest, rfl⟩ := List.exists_cons_of_ne_nil hne
      by_cases hc : c = '0'
      · rw [hzero (congrArg some hc)]
        exact .zero 0
      · exact .number 0 hc hdigits
  | text hne hchars => exact .text hne hchars

theorem WellFormed.isRuns (h : t.WellFormed) : Version.IsRuns t.chars [t.chars] := by
  have hchars : t.chars ≠ [] ∧ ∀ c ∈ t.chars, ∀ d ∈ t.chars, c.isDigit = d.isDigit := by
    cases h with
    | number hne hdigits _ => exact ⟨hne, fun c hc d hd => (hdigits c hc).trans (hdigits d hd).symm⟩
    | text hne hchars => exact ⟨hne, fun c hc d hd => (hchars c hc).trans (hchars d hd).symm⟩
  exact ⟨by simp, by simpa using hchars.1, by simpa using hchars.2, by simp⟩

/-- A token has no character that its run has not. -/
theorem Reads.chars_subset (h : Reads run t) : t.chars ⊆ run := by
  cases h with
  | zero n =>
      exact fun c hc => List.mem_replicate.mpr ⟨Nat.succ_ne_zero n, List.mem_singleton.mp hc⟩
  | number n hc hdigits => exact List.subset_append_right _ _
  | text hne hchars => exact List.Subset.refl _

/-- A token that a version can have: it holds no separator. -/
structure IsPiece (t : VersionToken) : Prop where
  wellFormed : t.WellFormed
  plain : ∀ c ∈ t.chars, Version.isSeparator c = false

end VersionToken

namespace Version

variable {part run text : List Char} {tokens : List VersionToken} {t : VersionToken}

/-- The tokens of a part with a dot between them. -/
def joined (tokens : List VersionToken) : List Char :=
  ['.'].intercalate (tokens.map VersionToken.chars)

/-- A part without tokens is left out. -/
def part? : List VersionToken → Option (List Char)
  | [] => none
  | t :: rest => some (joined (t :: rest))

theorem part?_eq_some_iff : part? tokens = some part ↔ tokens ≠ [] ∧ joined tokens = part := by
  cases tokens <;> simp [part?]

/-- The text that is written from the tokens of a version alone. -/
def canonical (v : Version) : String :=
  .ofList (joined v.sequence ++ (part? v.preRelease).elim [] ('-' :: ·) ++
    (part? v.build).elim [] ('+' :: ·))

/-! ## Tokens of a version -/

theorem uniform_of_mem_runsOfPart (h : run ∈ runsOfPart part) :
    ∀ c ∈ run, ∀ d ∈ run, c.isDigit = d.isDigit := by
  obtain ⟨piece, -, hrun⟩ := List.mem_flatMap.mp h
  exact (isRuns_runsOfPiece piece).uniform run hrun

theorem plain_of_mem_runsOfPart (h : run ∈ runsOfPart part) : ∀ c ∈ run, isSeparator c = false := by
  obtain ⟨piece, hpiece, hrun⟩ := List.mem_flatMap.mp h
  intro c hc
  have hflatten := (isRuns_runsOfPiece piece).flatten
  exact Text.not_of_mem_splitOnP hpiece c (hflatten ▸ List.mem_flatten_of_mem hrun hc)

theorem isPiece_of_mem_tokensOf (part : Option (List Char)) : ∀ t ∈ tokensOf part, t.IsPiece := by
  intro t ht
  cases part with
  | none => cases ht
  | some part =>
      obtain ⟨run, hrun, hread⟩ := List.mem_map.mp ht
      have hreads := (reads_iff_of_mem_runsOfPart hrun t).mpr hread
      exact ⟨hreads.wellFormed, fun c hc => plain_of_mem_runsOfPart hrun c (hreads.chars_subset hc)⟩

structure IsPlain (v : Version) : Prop where
  sequence : ∀ t ∈ v.sequence, t.IsPiece
  preRelease : ∀ t ∈ v.preRelease, t.IsPiece
  build : ∀ t ∈ v.build, t.IsPiece

theorem isPlain_of_parse {text : String} {v : Version} (h : parse text = .ok v) : v.IsPlain := by
  obtain ⟨-, rfl⟩ := (Parts.of_partsOf text.toList).parse_eq_ok_iff.mp h
  exact ⟨isPiece_of_mem_tokensOf _, isPiece_of_mem_tokensOf _, isPiece_of_mem_tokensOf _⟩

/-! ## Reading joined tokens -/

theorem eq_dot_of_mem_joined (h : ∀ t ∈ tokens, t.IsPiece) :
    ∀ c ∈ joined tokens, c = '.' ∨ isSeparator c = false := by
  intro c hc
  refine (Text.eq_or_mem_of_mem_intercalate hc).imp_right ?_
  rintro ⟨chars, hchars, hmem⟩
  obtain ⟨t, ht, rfl⟩ := List.mem_map.mp hchars
  exact (h t ht).plain c hmem

theorem not_mem_joined {sign : Char} (h : ∀ t ∈ tokens, t.IsPiece)
    (hsign : isSeparator sign = true) (hne : sign ≠ '.') : sign ∉ joined tokens := by
  intro hmem
  rcases eq_dot_of_mem_joined h sign hmem with hdot | hplain
  · exact hne hdot
  · simp [hsign] at hplain

theorem pieces_joined (h : ∀ t ∈ tokens, t.IsPiece) (hne : tokens ≠ []) :
    pieces (joined tokens) = tokens.map VersionToken.chars := by
  have hdots : ∀ c ∈ joined tokens, isSeparator c = (c == '.') := by
    intro c hc
    rcases eq_dot_of_mem_joined h c hc with rfl | hplain
    · rfl
    · rw [hplain]
      exact (beq_false_of_ne fun hdot => by simp [hdot, isSeparator] at hplain).symm
  rw [pieces, splitOnP_congr hdots]
  refine List.splitOn_intercalate '.' (fun chars hchars hdot => ?_) (by simpa using hne)
  obtain ⟨t, ht, rfl⟩ := List.mem_map.mp hchars
  have hplain := (h t ht).plain '.' hdot
  simp [isSeparator] at hplain

theorem isWhole_joined (h : ∀ t ∈ tokens, t.IsPiece) (hne : tokens ≠ []) :
    IsWhole (joined tokens) := by
  rw [IsWhole, pieces_joined h hne]
  intro piece hpiece
  obtain ⟨t, ht, rfl⟩ := List.mem_map.mp hpiece
  exact (h t ht).wellFormed.isRuns.ne_nil _ (List.mem_singleton.mpr rfl)

theorem of_mem_part? (h : ∀ t ∈ tokens, t.IsPiece) :
    ∀ part ∈ part? tokens, '+' ∉ part ∧ IsWhole part := by
  intro part hpart
  obtain ⟨hne, rfl⟩ := part?_eq_some_iff.mp hpart
  exact ⟨not_mem_joined h rfl (by decide), isWhole_joined h hne⟩

theorem tokensOf_joined (h : ∀ t ∈ tokens, t.IsPiece) :
    tokensOf (some (joined tokens)) = tokens := by
  have htoken : ∀ t ∈ tokens, (runsOfPiece t.chars).map VersionToken.ofRun = [t] := by
    intro t ht
    have hwellFormed := (h t ht).wellFormed
    rw [isRuns_iff.mp hwellFormed.isRuns, List.map_singleton, hwellFormed.reads.ofRun_eq]
  by_cases hne : tokens = []
  · simp [hne, joined, runsOfPart_nil]
  · calc tokensOf (some (joined tokens))
        = ((pieces (joined tokens)).flatMap runsOfPiece).map VersionToken.ofRun := rfl
      _ = tokens.flatMap fun t => (runsOfPiece t.chars).map VersionToken.ofRun := by
          rw [pieces_joined h hne, List.flatMap_map, List.map_flatMap]
      _ = tokens.flatMap fun t => [t] := List.flatMap_congr htoken
      _ = tokens := List.flatMap_singleton' tokens

/-! ## Reading the canonical text -/

/-- A part that does not start with a separator starts with its first run. -/
theorem exists_runsOfPart_eq {c : Char} (hc : isSeparator c = false) (part : List Char) :
    ∃ run runs, runsOfPart (c :: part) = (c :: run) :: runs := by
  obtain ⟨piece, others, hpieces⟩ :=
    List.exists_cons_of_ne_nil (List.splitOnP_ne_nil isSeparator part)
  have hfirst : pieces (c :: part) = (c :: piece) :: others := by
    rw [pieces, List.splitOnP_cons_eq_if_modifyHead, hpieces]
    simp [hc]
  have hruns := isRuns_runsOfPiece (c :: piece)
  rw [runsOfPart, hfirst, List.flatMap_cons]
  cases hrun : runsOfPiece (c :: piece) with
  | nil => simpa [hrun] using hruns.flatten
  | cons run rest =>
      rw [hrun] at hruns
      obtain ⟨d, run, rfl⟩ := List.exists_cons_of_ne_nil (hruns.ne_nil run (by simp))
      obtain rfl : d = c := (List.cons.inj hruns.flatten).1
      exact ⟨run, rest ++ others.flatMap runsOfPiece, rfl⟩

theorem isSeparator_of_isDigit {c : Char} (h : c.isDigit = true) : isSeparator c = false := by
  have hsigns : ∀ sign, isSeparator sign = true → sign.isDigit = false := by
    intro sign hsign
    simp only [isSeparator, Bool.or_eq_true, beq_iff_eq] at hsign
    rcases hsign with (rfl | rfl) | rfl <;> rfl
  exact Bool.eq_false_iff.mpr fun hseparator => by simp [hsigns c hseparator] at h

/-- The first token of a version is a number. -/
theorem exists_sequence_eq {text : String} {v : Version} (h : parse text = .ok v) :
    ∃ t rest, v.sequence = t :: rest ∧ ∀ c ∈ t.chars, c.isDigit = true := by
  have hparts := Parts.of_partsOf text.toList
  obtain ⟨hgrammar, rfl⟩ := hparts.parse_eq_ok_iff.mp h
  obtain ⟨⟨c, hhead, hdigit⟩, hwhole, -⟩ := hparts.isGrammatical_iff.mp hgrammar
  have hne : (partsOf text.toList).sequence ≠ [] := fun hnil => not_isWhole_nil (hnil ▸ hwhole)
  obtain ⟨d, rest, hsequence⟩ := List.exists_cons_of_ne_nil hne
  obtain rfl : d = c := by
    have htext := hparts.text_eq
    rw [Parts.release, hsequence] at htext
    rw [htext] at hhead
    simpa using hhead
  obtain ⟨run, runs, hruns⟩ := exists_runsOfPart_eq (isSeparator_of_isDigit hdigit) rest
  have hmem : d :: run ∈ runsOfPart (d :: rest) := by rw [hruns]; exact List.mem_cons_self
  have hreads := (reads_iff_of_mem_runsOfPart hmem _).mpr rfl
  refine ⟨VersionToken.ofRun (d :: run), runs.map VersionToken.ofRun, ?_, ?_⟩
  · rw [hsequence, tokensOf_some, hruns, List.map_cons]
  · intro c hc
    rw [uniform_of_mem_runsOfPart hmem c (hreads.chars_subset hc) d List.mem_cons_self, hdigit]

def canonicalParts (v : Version) : Parts :=
  ⟨joined v.sequence, part? v.preRelease, part? v.build⟩

theorem canonicalParts_of {v : Version} (h : v.IsPlain) :
    v.canonicalParts.Of v.canonical.toList := by
  refine ⟨String.toList_ofList, Parts.plus_not_mem_release_iff.mpr ⟨?_, ?_⟩, ?_⟩
  · exact not_mem_joined h.sequence rfl (by decide)
  · exact fun part hpart => (of_mem_part? h.preRelease part hpart).1
  · exact not_mem_joined h.sequence rfl (by decide)

theorem tokensOf_part? (h : ∀ t ∈ tokens, t.IsPiece) : tokensOf (part? tokens) = tokens := by
  cases tokens with
  | nil => rfl
  | cons t rest => exact tokensOf_joined h

theorem exists_head?_canonical {v : Version} {rest : List VersionToken}
    (h : v.sequence = t :: rest) (hne : t.chars ≠ []) :
    ∃ c ∈ v.canonical.toList.head?, c ∈ t.chars := by
  obtain ⟨c, chars, hchars⟩ := List.exists_cons_of_ne_nil hne
  refine ⟨c, ?_, by simp [hchars]⟩
  rw [canonical, String.toList_ofList, h, joined, List.map_cons, hchars,
    List.intercalate_cons_cons_left]
  rfl

/-- The canonical text of a version is read as the same tokens. -/
theorem parse_canonical {text : String} {v : Version} (h : parse text = .ok v) :
    parse v.canonical = .ok { v with text := v.canonical } := by
  have hplain := isPlain_of_parse h
  have hparts := canonicalParts_of hplain
  -- the text has to start with a digit, which is the first one of the first token
  obtain ⟨first, rest, hsequence, hdigits⟩ := exists_sequence_eq h
  have hfirst : first.IsPiece := hplain.sequence first (by simp [hsequence])
  obtain ⟨c, hhead, hc⟩ :=
    exists_head?_canonical hsequence (hfirst.wellFormed.isRuns.ne_nil _ List.mem_cons_self)
  have hgrammar : IsGrammatical v.canonical.toList := by
    refine hparts.isGrammatical_iff.mpr ⟨⟨c, hhead, hdigits c hc⟩, ?_, ?_, ?_⟩
    · exact isWhole_joined hplain.sequence (by simp [hsequence])
    · exact fun part hpart => (of_mem_part? hplain.preRelease part hpart).2
    · exact of_mem_part? hplain.build
  refine hparts.parse_eq_ok_iff.mpr ⟨hgrammar, ?_⟩
  rw [canonicalParts, tokensOf_joined hplain.sequence, tokensOf_part? hplain.preRelease,
    tokensOf_part? hplain.build]

/-- The canonical text of a version is a version with the same tokens. Two versions are equal
exactly if their canonical texts are the same. -/
theorem canonical_of_parse {s t : String} {a b : Version} (ha : parse s = .ok a)
    (hb : parse t = .ok b) :
    (∃ v, parse a.canonical = .ok v ∧ v.sequence = a.sequence ∧ v.preRelease = a.preRelease ∧
      v.build = a.build ∧ (v == a) = true) ∧
      ((a == b) = true ↔ a.canonical = b.canonical) := by
  have hequal : ∀ {v w : Version}, v.WellFormed → w.WellFormed →
      ((v == w) = true ↔ v.key = w.key) :=
    fun hv hw => beq_iff_compare_eq.trans (compare_eq_iff hv hw)
  have hcanonical := parse_canonical ha
  refine ⟨⟨_, hcanonical, rfl, rfl, rfl, ?_⟩, ?_⟩
  · exact (hequal (wellFormed_of_parse hcanonical) (wellFormed_of_parse ha)).mpr rfl
  · rw [hequal (wellFormed_of_parse ha) (wellFormed_of_parse hb)]
    constructor
    · intro hkey
      obtain ⟨hsequence, hpreRelease, hbuild⟩ := key_eq_iff.mp hkey
      rw [canonical, canonical, hsequence, hpreRelease, hbuild]
    · intro htext
      -- both are read from the one text
      rw [htext, parse_canonical hb] at hcanonical
      exact (congrArg key (Except.ok.inj hcanonical)).symm

/-- Zeros at the front of a number are not written, and all signs between tokens become dots. -/
theorem canonical_of_leading_zeros :
    let a : Version := ⟨"01.2b-0-00+x-1", [.number ['1'], .number ['2'], .text ['b']],
      [.number ['0'], .number ['0']], [.text ['x'], .number ['1']]⟩
    let b : Version := { a with text := "1.2.b-0.000+x1" }
    parse "01.2b-0-00+x-1" = .ok a ∧ parse "1.2.b-0.000+x1" = .ok b ∧
      a.canonical = "1.2.b-0.0+x.1" ∧
      (∃ v, parse a.canonical = .ok v ∧ v.sequence = a.sequence ∧ v.preRelease = a.preRelease ∧
        v.build = a.build ∧ (v == a) = true) ∧
      ((a == b) = true ↔ a.canonical = b.canonical) := by
  intro a b
  have ha : parse "01.2b-0-00+x-1" = .ok a := by decide +kernel
  have hb : parse "1.2.b-0.000+x1" = .ok b := by decide +kernel
  exact ⟨ha, hb, by decide +kernel, canonical_of_parse ha hb⟩

end Version

end ModuleSearch
