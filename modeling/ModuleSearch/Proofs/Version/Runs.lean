import Mathlib.Data.List.Forall2
import ModuleSearch.Proofs.Version.Tokens

/-!
# The runs of a version text

A version text has a sequence, a pre-release after the first hyphen and a build after the first plus
sign (`Version.Parts`). Separators cut a part into pieces, and a piece falls into maximal runs of
digits and of other characters (`Version.IsRuns`). Each run is written for one token
(`VersionToken.Reads`).
-/

namespace ModuleSearch

namespace VersionToken

/-- The token for a run of digits or of other characters. Zeros at the front do not count, and of
zeros alone one is left. -/
inductive Reads : List Char → VersionToken → Prop
  | zero (n : Nat) : Reads (List.replicate (n + 1) '0') (number ['0'])
  | number (n : Nat) {c : Char} {digits : List Char} (hc : c ≠ '0')
      (hdigits : ∀ d ∈ c :: digits, d.isDigit = true) :
      Reads (List.replicate n '0' ++ c :: digits) (number (c :: digits))
  | text {chars : List Char} (hne : chars ≠ []) (hchars : ∀ c ∈ chars, c.isDigit = false) :
      Reads chars (text chars)

variable {run : List Char} {t : VersionToken}

theorem reads_ofDigits (hne : run ≠ []) (h : ∀ c ∈ run, c.isDigit = true) :
    Reads run (ofDigits run) := by
  obtain ⟨zeros, hzeros⟩ : ∃ n, run.takeWhile (· == '0') = List.replicate n '0' :=
    ⟨_, List.eq_replicate_of_mem fun c hc => by
      simpa using List.all_eq_true.mp List.all_takeWhile c hc⟩
  have hsplit := List.takeWhile_append_dropWhile (p := (· == '0')) (l := run)
  rw [ofDigits]
  cases hdrop : run.dropWhile (· == '0') with
  | nil =>
      rw [hdrop, List.append_nil, hzeros] at hsplit
      cases zeros with
      | zero => exact absurd hsplit.symm hne
      | succ n => exact hsplit ▸ .zero n
  | cons c rest =>
      have hc : c ≠ '0' := by
        have hhead := List.head?_dropWhile_not (· == '0') run
        simpa [hdrop] using hhead
      rw [hdrop, hzeros] at hsplit
      rw [← hsplit] at h ⊢
      exact .number zeros hc fun d hd => h d (List.mem_append_right _ hd)

theorem reads_ofRun (hne : run ≠ []) (h : ∀ c ∈ run, ∀ d ∈ run, c.isDigit = d.isDigit) :
    Reads run (ofRun run) := by
  obtain ⟨c, rest, rfl⟩ := List.exists_cons_of_ne_nil hne
  rw [ofRun]
  cases hc : c.isDigit with
  | true =>
      have hall : ∀ d ∈ c :: rest, d.isDigit = true := fun d hd => (h d hd c (by simp)).trans hc
      rw [if_pos (List.all_eq_true.mpr hall)]
      exact reads_ofDigits hne hall
  | false =>
      rw [if_neg (by simp [hc])]
      exact .text hne fun d hd => (h d hd c (by simp)).trans hc

/-- A run has one token only. -/
theorem Reads.ofRun_eq (h : Reads run t) : ofRun run = t := by
  cases h with
  | zero n =>
      have hall : (List.replicate (n + 1) '0').all Char.isDigit = true := by simp
      rw [ofRun, if_pos hall, ofDigits]
      simp
  | @number n c digits hc hdigits =>
      have hall : (List.replicate n '0' ++ c :: digits).all Char.isDigit = true := by
        simp_all
      rw [ofRun, if_pos hall, ofDigits]
      simp [hc]
  | text hne hchars =>
      obtain ⟨c, rest, rfl⟩ := List.exists_cons_of_ne_nil hne
      rw [ofRun, if_neg (by simp [hchars c])]

end VersionToken

namespace Version

variable {piece part text : List Char} {runs : List (List Char)}

/-! ## Runs -/

/-- The maximal runs of digits and of other characters of a piece, one after the other. -/
structure IsRuns (piece : List Char) (runs : List (List Char)) : Prop where
  flatten : runs.flatten = piece
  ne_nil : ∀ run ∈ runs, run ≠ []
  uniform : ∀ run ∈ runs, ∀ c ∈ run, ∀ d ∈ run, c.isDigit = d.isDigit
  maximal : runs.IsChain fun run next => ∀ c ∈ run, ∀ d ∈ next, c.isDigit ≠ d.isDigit

def runsOfPiece (piece : List Char) : List (List Char) :=
  piece.splitBy fun a b => a.isDigit == b.isDigit

theorem isRuns_runsOfPiece (piece : List Char) : IsRuns piece (runsOfPiece piece) := by
  have huniform : ∀ run ∈ runsOfPiece piece, ∀ c ∈ run, ∀ d ∈ run, c.isDigit = d.isDigit := by
    intro run hrun c hc d hd
    obtain ⟨first, rest, rfl⟩ := List.exists_cons_of_ne_nil (List.ne_nil_of_mem_splitBy hrun)
    have hkind := VersionToken.isDigit_eq_of_isChain (List.isChain_of_mem_splitBy hrun)
    rw [hkind c hc, hkind d hd]
  refine ⟨List.flatten_splitBy .., fun run => List.ne_nil_of_mem_splitBy, huniform, ?_⟩
  refine (List.isChain_getLast_head_splitBy _ piece).imp_of_mem_imp ?_
  rintro run next hrun hnext ⟨hne, hne', hdiffer⟩ c hc d hd
  rw [huniform run hrun c hc _ (List.getLast_mem hne),
    huniform next hnext d hd _ (List.head_mem hne')]
  simpa using hdiffer

/-- A piece has its runs in one way only. -/
theorem isRuns_iff : IsRuns piece runs ↔ runsOfPiece piece = runs := by
  constructor
  · intro h
    refine List.splitBy_eq_iff.mpr ⟨h.flatten.symm, fun hnil => h.ne_nil [] hnil rfl, ?_, ?_⟩
    · intro run hrun
      refine List.Pairwise.isChain (List.pairwise_of_forall_mem_list ?_)
      intro c hc d hd
      simpa using h.uniform run hrun c hc d hd
    · refine h.maximal.imp_of_mem_imp ?_
      intro run next hrun hnext hdiffer
      refine ⟨h.ne_nil run hrun, h.ne_nil next hnext, ?_⟩
      simpa using hdiffer _ (List.getLast_mem _) _ (List.head_mem _)
  · rintro rfl
    exact isRuns_runsOfPiece piece

/-- What separates the tokens of a version. -/
def isSeparator (c : Char) : Bool := c == '.' || c == '-' || c == '+'

/-- What stands before, between and after the separators. -/
def pieces (text : List Char) : List (List Char) := text.splitOnP isSeparator

/-- The runs of the pieces of a part, one piece after the other. -/
def RunsOf (part : List Char) (runs : List (List Char)) : Prop :=
  ∃ runsOfPieces, List.Forall₂ IsRuns (pieces part) runsOfPieces ∧ runsOfPieces.flatten = runs

def runsOfPart (part : List Char) : List (List Char) := (pieces part).flatMap runsOfPiece

theorem forall₂_eq_map_iff {α β : Type} {R : α → β → Prop} {f : α → β} {xs : List α} {ys : List β}
    (h : ∀ a ∈ xs, ∀ b, R a b ↔ f a = b) : List.Forall₂ R xs ys ↔ xs.map f = ys := by
  induction xs generalizing ys with
  | nil => simp [eq_comm]
  | cons a rest ih =>
      obtain ⟨ha, hrest⟩ := List.forall_mem_cons.mp h
      cases ys with
      | nil => simp
      | cons b ys => rw [List.forall₂_cons, ha, ih hrest, List.map_cons, List.cons.injEq]

theorem runsOf_iff : RunsOf part runs ↔ runsOfPart part = runs := by
  have hruns : ∀ piece ∈ pieces part, ∀ runs, IsRuns piece runs ↔ runsOfPiece piece = runs :=
    fun _ _ _ => isRuns_iff
  simp only [RunsOf, forall₂_eq_map_iff hruns]
  rw [exists_eq_left', runsOfPart, List.flatMap]

/-! ## Parts -/

/-- The text of a version in its parts. -/
structure Parts where
  sequence : List Char
  preRelease : Option (List Char)
  build : Option (List Char)

/-- What stands before the build. -/
def Parts.release (p : Parts) : List Char := p.sequence ++ p.preRelease.elim [] ('-' :: ·)

/-- What stands before the build ends at the first plus sign, and the sequence at the first hyphen
in it. -/
structure Parts.Of (p : Parts) (text : List Char) : Prop where
  text_eq : text = p.release ++ p.build.elim [] ('+' :: ·)
  plus : '+' ∉ p.release
  hyphen : '-' ∉ p.sequence

def partsOf (text : List Char) : Parts :=
  ⟨(Text.cut '-' (Text.cut '+' text).1).1, (Text.cut '-' (Text.cut '+' text).1).2,
    (Text.cut '+' text).2⟩

theorem cut_eq_iff {sign : Char} {before : List Char} {after : Option (List Char)} :
    Text.cut sign text = (before, after) ↔
      sign ∉ before ∧ text = before ++ after.elim [] (sign :: ·) := by
  constructor
  · intro h
    induction text generalizing before with
    | nil =>
        obtain ⟨rfl, rfl⟩ : [] = before ∧ none = after := by simpa using h
        simp
    | cons c rest ih =>
        by_cases hc : c = sign
        · subst hc
          obtain ⟨rfl, rfl⟩ : [] = before ∧ some rest = after := by
            simpa [Text.cut_cons_self] using h
          simp
        · rw [Text.cut_cons_ne hc] at h
          obtain ⟨rfl, rfl⟩ := Prod.mk.inj h
          obtain ⟨hrest, heq⟩ := ih rfl
          exact ⟨by simpa [Ne.symm hc] using hrest, congrArg (c :: ·) heq⟩
  · rintro ⟨h, rfl⟩
    cases after with
    | none => rw [Option.elim_none, List.append_nil, Text.cut_of_not_mem h]
    | some after => exact Text.cut_append h after

/-- A text has its parts in one way only. -/
theorem Parts.of_iff {p : Parts} : p.Of text ↔ partsOf text = p := by
  constructor
  · rintro ⟨htext, hplus, hhyphen⟩
    have hrelease : Text.cut '-' p.release = (p.sequence, p.preRelease) :=
      cut_eq_iff.mpr ⟨hhyphen, rfl⟩
    simp only [partsOf, cut_eq_iff.mpr ⟨hplus, htext⟩, hrelease]
  · intro h
    obtain ⟨hplus, htext⟩ := cut_eq_iff.mp (Prod.eta (Text.cut '+' text)).symm
    obtain ⟨hhyphen, hrelease⟩ := cut_eq_iff.mp (Prod.eta (Text.cut '-' (Text.cut '+' text).1)).symm
    subst h
    rw [hrelease] at hplus htext
    exact ⟨htext, hplus, hhyphen⟩

theorem Parts.plus_not_mem_release_iff {p : Parts} :
    '+' ∉ p.release ↔ '+' ∉ p.sequence ∧ ∀ part ∈ p.preRelease, '+' ∉ part := by
  cases hpart : p.preRelease <;> simp [Parts.release, hpart]

theorem Parts.of_partsOf (text : List Char) : (partsOf text).Of text := Parts.of_iff.mpr rfl

/-- The runs of a version text, as they are written. -/
structure Runs where
  sequence : List (List Char)
  preRelease : Option (List (List Char))
  build : Option (List (List Char))

/-- The runs of the parts of a text. -/
def Runs.Of (r : Runs) (text : List Char) : Prop :=
  ∃ p : Parts, p.Of text ∧ RunsOf p.sequence r.sequence ∧
    Option.Rel RunsOf p.preRelease r.preRelease ∧ Option.Rel RunsOf p.build r.build

def runsOf (text : List Char) : Runs :=
  ⟨runsOfPart (partsOf text).sequence, (partsOf text).preRelease.map runsOfPart,
    (partsOf text).build.map runsOfPart⟩

theorem rel_runsOf_iff {part : Option (List Char)} {runs : Option (List (List Char))} :
    Option.Rel RunsOf part runs ↔ part.map runsOfPart = runs := by
  cases part <;> cases runs <;> simp [runsOf_iff]

theorem Runs.of_iff {r : Runs} : r.Of text ↔ runsOf text = r := by
  simp only [Runs.Of, Parts.of_iff, exists_eq_left', runsOf_iff, rel_runsOf_iff]
  rw [runsOf, Runs.mk.injEq]

end Version

end ModuleSearch
