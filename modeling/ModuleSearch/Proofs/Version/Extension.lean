import ModuleSearch.Proofs.Version.Grammar
import ModuleSearch.Proofs.Version.Order

/-!
# Versions that extend one another

A release is preceded by its pre-releases, with or without a build, and followed by its builds and
then by every version with a longer sequence: `pairwise_compare_extensions`.
-/

namespace ModuleSearch

theorem compare_append_of_ne_nil {α : Type} [Ord α] [Std.ReflOrd α] (xs : List α) {ys : List α}
    (h : ys ≠ []) : compare xs (xs ++ ys) = .lt := by
  induction xs with
  | nil =>
      obtain ⟨y, rest, rfl⟩ := List.exists_cons_of_ne_nil h
      rfl
  | cons x xs ih =>
      rw [List.cons_append, List.compare_cons_cons, Std.ReflOrd.compare_self, ih, Ordering.eq_then]

instance : Std.ReflOrd VersionToken where
  compare_self := by
    intro t
    cases t with
    | number digits =>
        change (compare digits.length digits.length).then (compare digits digits) = .eq
        rw [Std.ReflOrd.compare_self, Std.ReflOrd.compare_self, Ordering.eq_then]
    | text chars => exact Std.ReflOrd.compare_self (a := chars)

namespace Version

variable {v w : Version} {tokens : List VersionToken}

/-! ## Versions that differ in one part -/

theorem compare_eq_then (v w : Version) : Ord.compare v w =
    (Ord.compare v.sequence w.sequence).then
      ((comparePreRelease v.preRelease w.preRelease).then (Ord.compare v.build w.build)) := rfl

theorem compare_eq_lt_of_sequence (h : w.sequence = v.sequence ++ tokens) (hne : tokens ≠ []) :
    Ord.compare v w = .lt := by
  rw [compare_eq_then, h, compare_append_of_ne_nil v.sequence hne, Ordering.lt_then]

theorem compare_eq_lt_of_preRelease (hsequence : v.sequence = w.sequence) (hv : v.preRelease ≠ [])
    (hw : w.preRelease = []) : Ord.compare v w = .lt := by
  obtain ⟨t, rest, hpreRelease⟩ := List.exists_cons_of_ne_nil hv
  rw [compare_eq_then, hsequence, Std.ReflOrd.compare_self, Ordering.eq_then, hpreRelease, hw]
  rfl

theorem compare_eq_lt_of_build (hsequence : v.sequence = w.sequence)
    (hpreRelease : v.preRelease = w.preRelease) (hv : v.build = []) (hw : w.build ≠ []) :
    Ord.compare v w = .lt := by
  have hequal : comparePreRelease w.preRelease w.preRelease = .eq := by
    rw [comparePreRelease_eq, Std.ReflOrd.compare_self, Std.ReflOrd.compare_self, Ordering.eq_then]
  have hless : Ord.compare v.build w.build = .lt := by
    rw [hv]
    exact compare_append_of_ne_nil [] hw
  rw [compare_eq_then, hsequence, Std.ReflOrd.compare_self, hpreRelease, hequal, hless,
    Ordering.eq_then, Ordering.eq_then]

/-! ## Versions by the parts of their texts -/

/-- A version that is read from these parts. A part that is there has tokens. -/
structure IsReadFrom (v : Version) (p : Parts) : Prop where
  sequence_eq : v.sequence = tokensOf (some p.sequence)
  preRelease_eq : v.preRelease = tokensOf p.preRelease
  build_eq : v.build = tokensOf p.build
  whole : IsWhole p.sequence
  preRelease_eq_nil_iff : v.preRelease = [] ↔ p.preRelease = none
  build_eq_nil_iff : v.build = [] ↔ p.build = none

theorem tokensOf_eq_nil_iff {part : Option (List Char)} (h : ∀ text ∈ part, IsWhole text) :
    tokensOf part = [] ↔ part = none := by
  cases part with
  | none => simp
  | some text => simpa using runsOfPart_ne_nil (h text rfl)

theorem isReadFrom_of_parse {text : String} {p : Parts}
    (htext : text.toList = p.release ++ p.build.elim [] ('+' :: ·))
    (hsequence : '-' ∉ p.sequence ∧ '+' ∉ p.sequence)
    (hpreRelease : ∀ part ∈ p.preRelease, '+' ∉ part) (h : parse text = .ok v) :
    v.IsReadFrom p := by
  have hplus : '+' ∉ p.release := Parts.plus_not_mem_release_iff.mpr ⟨hsequence.2, hpreRelease⟩
  have hparts : p.Of text.toList := ⟨htext, hplus, hsequence.1⟩
  obtain ⟨hgrammar, rfl⟩ := hparts.parse_eq_ok_iff.mp h
  obtain ⟨-, hwhole, hpreRelease, hbuild⟩ := hparts.isGrammatical_iff.mp hgrammar
  exact ⟨rfl, rfl, rfl, hwhole, tokensOf_eq_nil_iff hpreRelease,
    tokensOf_eq_nil_iff fun part hpart => (hbuild part hpart).2⟩

theorem tokensOf_append_dot (part more : List Char) :
    tokensOf (some (part ++ '.' :: more)) = tokensOf (some part) ++ tokensOf (some more) := by
  have hruns : runsOfPart (part ++ '.' :: more) = runsOfPart part ++ runsOfPart more := by
    rw [runsOfPart, pieces, List.splitOnP_append_cons part more rfl, List.flatMap_append]
    rfl
  rw [tokensOf_some, hruns, List.map_append, ← tokensOf_some, ← tokensOf_some]

theorem isWhole_of_append_dot {part more : List Char} (h : IsWhole (part ++ '.' :: more)) :
    IsWhole more := by
  rw [IsWhole, pieces, List.splitOnP_append_cons part more rfl, List.forall_mem_append] at h
  exact h.2

namespace IsReadFrom

variable {sequence more : List Char} {preRelease preRelease' build build' : Option (List Char)}

theorem compare_of_preRelease {part : List Char} (hv : v.IsReadFrom ⟨sequence, some part, build⟩)
    (hw : w.IsReadFrom ⟨sequence, none, build'⟩) : Ord.compare v w = .lt := by
  refine compare_eq_lt_of_preRelease (hv.sequence_eq.trans hw.sequence_eq.symm) ?_ ?_
  · exact fun hnil => Option.some_ne_none part (hv.preRelease_eq_nil_iff.mp hnil)
  · exact hw.preRelease_eq_nil_iff.mpr rfl

theorem compare_of_build {part : List Char} (hv : v.IsReadFrom ⟨sequence, preRelease, none⟩)
    (hw : w.IsReadFrom ⟨sequence, preRelease, some part⟩) : Ord.compare v w = .lt := by
  refine compare_eq_lt_of_build (hv.sequence_eq.trans hw.sequence_eq.symm)
    (hv.preRelease_eq.trans hw.preRelease_eq.symm) (hv.build_eq_nil_iff.mpr rfl) ?_
  exact fun hnil => Option.some_ne_none part (hw.build_eq_nil_iff.mp hnil)

theorem compare_of_sequence (hv : v.IsReadFrom ⟨sequence, preRelease, build⟩)
    (hw : w.IsReadFrom ⟨sequence ++ '.' :: more, preRelease', build'⟩) :
    Ord.compare v w = .lt := by
  have hwhole : ∀ text ∈ some more, IsWhole text := by simpa using isWhole_of_append_dot hw.whole
  have hne : tokensOf (some more) ≠ [] :=
    fun hnil => Option.some_ne_none more ((tokensOf_eq_nil_iff hwhole).mp hnil)
  refine compare_eq_lt_of_sequence ?_ hne
  rw [hw.sequence_eq, hv.sequence_eq, tokensOf_append_dot]

end IsReadFrom

/-- From least to greatest: a pre-release, a build of it, the release, a build of it, and a
pre-release with a longer sequence. -/
theorem pairwise_compare_extensions {s p b t : String}
    {preRelease preReleaseBuild release build longer : Version}
    (hs : '-' ∉ s.toList ∧ '+' ∉ s.toList) (hp : '+' ∉ p.toList)
    (ht : '-' ∉ t.toList ∧ '+' ∉ t.toList)
    (hpreRelease : parse (s ++ "-" ++ p) = .ok preRelease)
    (hpreReleaseBuild : parse (s ++ "-" ++ p ++ "+" ++ b) = .ok preReleaseBuild)
    (hrelease : parse s = .ok release) (hbuild : parse (s ++ "+" ++ b) = .ok build)
    (hlonger : parse (s ++ "." ++ t ++ "-" ++ p) = .ok longer) :
    [preRelease, preReleaseBuild, release, build, longer].Pairwise
      fun v w => Ord.compare v w = .lt := by
  have hst : '-' ∉ s.toList ++ '.' :: t.toList ∧ '+' ∉ s.toList ++ '.' :: t.toList := by
    simp [hs, ht]
  have hplus : ∀ part ∈ some p.toList, '+' ∉ part := by simpa using hp
  have hpreRelease : preRelease.IsReadFrom ⟨s.toList, some p.toList, none⟩ :=
    isReadFrom_of_parse (by simp [Parts.release]) hs hplus hpreRelease
  have hpreReleaseBuild : preReleaseBuild.IsReadFrom ⟨s.toList, some p.toList, some b.toList⟩ :=
    isReadFrom_of_parse (by simp [Parts.release]) hs hplus hpreReleaseBuild
  have hrelease : release.IsReadFrom ⟨s.toList, none, none⟩ :=
    isReadFrom_of_parse (by simp [Parts.release]) hs (by simp) hrelease
  have hbuild : build.IsReadFrom ⟨s.toList, none, some b.toList⟩ :=
    isReadFrom_of_parse (by simp [Parts.release]) hs (by simp) hbuild
  have hlonger : longer.IsReadFrom ⟨s.toList ++ '.' :: t.toList, some p.toList, none⟩ :=
    isReadFrom_of_parse (by simp [Parts.release]) hst hplus hlonger
  refine .cons ?_ (.cons ?_ (.cons ?_ (.cons ?_ (List.pairwise_singleton _ _))))
  · simp only [List.mem_cons, List.not_mem_nil, or_false, forall_eq_or_imp, forall_eq]
    exact ⟨hpreRelease.compare_of_build hpreReleaseBuild,
      hpreRelease.compare_of_preRelease hrelease, hpreRelease.compare_of_preRelease hbuild,
      hpreRelease.compare_of_sequence hlonger⟩
  · simp only [List.mem_cons, List.not_mem_nil, or_false, forall_eq_or_imp, forall_eq]
    exact ⟨hpreReleaseBuild.compare_of_preRelease hrelease,
      hpreReleaseBuild.compare_of_preRelease hbuild, hpreReleaseBuild.compare_of_sequence hlonger⟩
  · simp only [List.mem_cons, List.not_mem_nil, or_false, forall_eq_or_imp, forall_eq]
    exact ⟨hrelease.compare_of_build hbuild, hrelease.compare_of_sequence hlonger⟩
  · simpa using hbuild.compare_of_sequence hlonger

/-- A pre-release of `1.0.0b` comes after the release `1.0` and its builds. -/
theorem pairwise_compare_extensions_sample :
    let preRelease : Version := ⟨"1.0-ea-2", [.number ['1'], .number ['0']],
      [.text ['e', 'a'], .number ['2']], []⟩
    let preReleaseBuild : Version :=
      { preRelease with text := "1.0-ea-2+7-x", build := [.number ['7'], .text ['x']] }
    let release : Version := { preRelease with text := "1.0", preRelease := [] }
    let build : Version :=
      { release with text := "1.0+7-x", build := [.number ['7'], .text ['x']] }
    let longer : Version := { preRelease with
      text := "1.0.0b-ea-2",
      sequence := [.number ['1'], .number ['0'], .number ['0'], .text ['b']] }
    parse "1.0-ea-2" = .ok preRelease ∧ parse "1.0-ea-2+7-x" = .ok preReleaseBuild ∧
      parse "1.0" = .ok release ∧ parse "1.0+7-x" = .ok build ∧ parse "1.0.0b-ea-2" = .ok longer ∧
      [preRelease, preReleaseBuild, release, build, longer].Pairwise
        fun v w => Ord.compare v w = .lt := by
  intro preRelease preReleaseBuild release build longer
  have hpreRelease : parse ("1.0" ++ "-" ++ "ea-2") = .ok preRelease := by decide +kernel
  have hpreReleaseBuild : parse ("1.0" ++ "-" ++ "ea-2" ++ "+" ++ "7-x") = .ok preReleaseBuild := by
    decide +kernel
  have hrelease : parse "1.0" = .ok release := by decide +kernel
  have hbuild : parse ("1.0" ++ "+" ++ "7-x") = .ok build := by decide +kernel
  have hlonger : parse ("1.0" ++ "." ++ "0b" ++ "-" ++ "ea-2") = .ok longer := by decide +kernel
  exact ⟨hpreRelease, hpreReleaseBuild, hrelease, hbuild, hlonger,
    pairwise_compare_extensions (by decide) (by decide) (by decide) hpreRelease hpreReleaseBuild
      hrelease hbuild hlonger⟩

end Version

end ModuleSearch
