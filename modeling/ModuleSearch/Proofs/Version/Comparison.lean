import Mathlib.Algebra.Group.Nat.Defs
import ModuleSearch.Proofs.ByteOrder
import ModuleSearch.Proofs.Version.Grammar
import ModuleSearch.Proofs.Version.Order

/-!
# Versions compared by their texts

What comparing two versions comes to in terms of the runs of their texts: digits count by the
numbers they denote, however long they are and whatever zeros they start with, other runs by their
bytes: `compare_eq_compare_runs`.
-/

namespace ModuleSearch

/-! ## Numbers -/

/-- The number that digits denote. -/
def numberOf (digits : List Char) : Nat := Nat.ofDigitChars 10 digits 0

variable {c d : Char} {digits others : List Char}

theorem numberOf_cons (c : Char) (digits : List Char) :
    numberOf (c :: digits) = 10 ^ digits.length * (c.toNat - '0'.toNat) + numberOf digits := by
  rw [numberOf, Nat.ofDigitChars_cons, Nat.ofDigitChars_eq_ofDigitChars_zero, numberOf,
    Nat.mul_zero, Nat.zero_add]

theorem numberOf_zeros_append (n : Nat) (digits : List Char) :
    numberOf (List.replicate n '0' ++ digits) = numberOf digits := by
  rw [numberOf, Nat.ofDigitChars_append, Nat.ofDigitChars_replicate_zero, Nat.mul_zero, numberOf]

theorem numberOf_lt (h : ∀ c ∈ digits, c.isDigit = true) :
    numberOf digits < 10 ^ digits.length := by
  induction digits with
  | nil => simp [numberOf]
  | cons c rest ih =>
      obtain ⟨hc, hrest⟩ := List.forall_mem_cons.mp h
      have hbounds := Char.isDigit_iff_toNat.mp hc
      have hvalue : c.toNat - '0'.toNat ≤ 9 := Nat.sub_le_of_le_add hbounds.2
      calc numberOf (c :: rest)
          = 10 ^ rest.length * (c.toNat - '0'.toNat) + numberOf rest := numberOf_cons c rest
        _ < 10 ^ rest.length * 9 + 10 ^ rest.length :=
            Nat.add_lt_add_of_le_of_lt (Nat.mul_le_mul_left _ hvalue) (ih hrest)
        _ = 10 ^ (c :: rest).length := by rw [List.length_cons, Nat.pow_succ]; omega

theorem le_numberOf_cons (hc : c.isDigit = true) (hzero : c ≠ '0') (digits : List Char) :
    10 ^ digits.length ≤ numberOf (c :: digits) := by
  have hbounds := Char.isDigit_iff_toNat.mp hc
  have hpos : 1 ≤ c.toNat - '0'.toNat := by
    have hne : c.toNat ≠ '0'.toNat := fun h => hzero (Char.toNat_inj.mp h)
    omega
  rw [numberOf_cons]
  exact Nat.le_add_right_of_le (Nat.le_mul_of_pos_right _ hpos)

theorem compare_mul_add {b m n v w : Nat} (hv : v < b) (hw : w < b) :
    compare (b * m + v) (b * n + w) = (compare m n).then (compare v w) := by
  rcases Nat.lt_trichotomy m n with h | rfl | h
  · have hle : b * m + b ≤ b * n := Nat.mul_le_mul_left b h
    rw [Nat.compare_eq_lt.mpr h, Ordering.lt_then, Nat.compare_eq_lt]
    omega
  · rw [Nat.compare_eq_eq.mpr rfl, Ordering.eq_then]
    rcases Nat.lt_trichotomy v w with h | rfl | h
    · rw [Nat.compare_eq_lt.mpr h, Nat.compare_eq_lt.mpr (by omega)]
    · rw [Nat.compare_eq_eq.mpr rfl, Nat.compare_eq_eq.mpr rfl]
    · rw [Nat.compare_eq_gt.mpr h, Nat.compare_eq_gt.mpr (by omega)]
  · have hle : b * n + b ≤ b * m := Nat.mul_le_mul_left b h
    rw [Nat.compare_eq_gt.mpr h, Ordering.gt_then, Nat.compare_eq_gt]
    omega

theorem compare_digit (hc : c.isDigit = true) (hd : d.isDigit = true) :
    compare c d = compare (c.toNat - '0'.toNat) (d.toNat - '0'.toNat) := by
  have hc := Char.isDigit_iff_toNat.mp hc
  have hd := Char.isDigit_iff_toNat.mp hd
  rcases Nat.lt_trichotomy c.toNat d.toNat with h | h | h
  · rw [compare_of_lt h, Nat.compare_eq_lt.mpr (by omega)]
  · rw [Char.toNat_inj.mp h, Std.ReflOrd.compare_self, Std.ReflOrd.compare_self]
  · rw [compare_of_gt h, Nat.compare_eq_gt.mpr (by omega)]

/-- Digits of one length are compared as the numbers are. -/
theorem compare_eq_compare_numberOf (h : ∀ c ∈ digits, c.isDigit = true)
    (h' : ∀ c ∈ others, c.isDigit = true) (hlength : digits.length = others.length) :
    compare digits others = compare (numberOf digits) (numberOf others) := by
  induction digits generalizing others with
  | nil =>
      obtain rfl := List.eq_nil_of_length_eq_zero hlength.symm
      rfl
  | cons c rest ih =>
      obtain ⟨d, rest', rfl⟩ := List.exists_cons_of_length_eq_add_one hlength.symm
      obtain ⟨hc, hrest⟩ := List.forall_mem_cons.mp h
      obtain ⟨hd, hrest'⟩ := List.forall_mem_cons.mp h'
      have hlength : rest.length = rest'.length := by simpa using hlength
      have hlt' := numberOf_lt hrest'
      rw [← hlength] at hlt'
      rw [List.compare_cons_cons, numberOf_cons, numberOf_cons, ← hlength,
        compare_mul_add (numberOf_lt hrest) hlt', compare_digit hc hd, ih hrest hrest' hlength]

namespace VersionToken

attribute [local instance] lexOrd

variable {chars run other : List Char} {s t : VersionToken}

theorem numberOf_lt_of_length_lt (hs : (number digits).WellFormed) (ht : (number others).WellFormed)
    (h : digits.length < others.length) : numberOf digits < numberOf others := by
  cases hs with
  | number hne hdigits _ =>
      cases ht with
      | number hne' hothers hzero =>
          obtain ⟨d, rest, rfl⟩ := List.exists_cons_of_ne_nil hne'
          have hlength : digits.length ≤ rest.length := Nat.le_of_lt_succ h
          have hd : d ≠ '0' := by
            rintro rfl
            -- then there is no other digit, and none is left for the shorter number
            obtain ⟨-, rfl⟩ := List.cons.inj (hzero rfl)
            exact hne (List.eq_nil_of_length_eq_zero (Nat.le_zero.mp hlength))
          calc numberOf digits
              < 10 ^ digits.length := numberOf_lt hdigits
            _ ≤ 10 ^ rest.length := Nat.pow_le_pow_right (by decide) hlength
            _ ≤ numberOf (d :: rest) := le_numberOf_cons (hothers d (by simp)) hd rest

theorem compare_number_number (hs : (number digits).WellFormed)
    (ht : (number others).WellFormed) :
    Ord.compare (number digits) (number others) =
      Ord.compare (numberOf digits) (numberOf others) := by
  change (Ord.compare digits.length others.length).then (Ord.compare digits others) = _
  rcases Nat.lt_trichotomy digits.length others.length with h | h | h
  · rw [Nat.compare_eq_lt.mpr h, Ordering.lt_then,
      Nat.compare_eq_lt.mpr (numberOf_lt_of_length_lt hs ht h)]
  · rw [Nat.compare_eq_eq.mpr h, Ordering.eq_then]
    cases hs with
    | number _ hdigits _ =>
        cases ht with
        | number _ hothers _ => exact compare_eq_compare_numberOf hdigits hothers h
  · rw [Nat.compare_eq_gt.mpr h, Ordering.gt_then,
      Nat.compare_eq_gt.mpr (numberOf_lt_of_length_lt ht hs h)]

/-- Whether a text stands before all numbers or after all of them: its first character tells. -/
def besideNumbers (text : List Char) : Ordering :=
  if text.head?.any (· < '0') then .lt else .gt

theorem compare_text_number (hs : (text chars).WellFormed) (ht : (number digits).WellFormed) :
    Ord.compare (text chars) (number digits) = besideNumbers chars := by
  rw [compare_eq_compare_place hs ht]
  cases hs with
  | text hne _ =>
      obtain ⟨c, cs, rfl⟩ := List.exists_cons_of_ne_nil hne
      rw [besideNumbers, List.head?_cons, Option.any_some]
      by_cases hlow : c < '0'
      · rw [place_low hlow, if_pos (decide_eq_true hlow)]
        rfl
      · rw [place_high hlow, if_neg (by simpa using hlow)]
        rfl

/-- Two runs: numbers by their values, texts by their bytes, a text beside a number by its first
character. -/
def compareRuns (run other : List Char) : Ordering :=
  match run.all Char.isDigit, other.all Char.isDigit with
  | true, true => Ord.compare (numberOf run) (numberOf other)
  | false, false => Ord.compare (utf8 (.ofList run)) (utf8 (.ofList other))
  | false, true => besideNumbers run
  | true, false => (besideNumbers other).swap

theorem Reads.wellFormed (h : Reads run t) : t.WellFormed := by
  cases h with
  | zero n => exact .number (by simp) (by simp) (by simp)
  | number n hc hdigits => exact .number (by simp) hdigits fun h => absurd (Option.some.inj h) hc
  | text hne hchars => exact .text hne hchars

theorem Reads.of_number (h : Reads run (.number digits)) :
    run.all Char.isDigit = true ∧ numberOf run = numberOf digits := by
  cases h with
  | zero n =>
      refine ⟨by simp, ?_⟩
      rw [List.replicate_succ', numberOf_zeros_append]
  | number n hc hdigits => exact ⟨by simpa using hdigits, numberOf_zeros_append n _⟩

theorem Reads.of_text (h : Reads run (.text chars)) :
    run.all Char.isDigit = false ∧ run = chars := by
  cases h with
  | text hne hchars =>
      obtain ⟨c, rest, rfl⟩ := List.exists_cons_of_ne_nil hne
      simp [hchars c]

theorem compare_eq_compareRuns (hs : Reads run s) (ht : Reads other t) :
    Ord.compare s t = compareRuns run other := by
  rw [compareRuns]
  cases s with
  | number digits =>
      obtain ⟨hrun, hnumber⟩ := hs.of_number
      cases t with
      | number others =>
          obtain ⟨hother, hnumber'⟩ := ht.of_number
          rw [hrun, hother, hnumber, hnumber', compare_number_number hs.wellFormed ht.wellFormed]
      | text chars =>
          obtain ⟨hother, rfl⟩ := ht.of_text
          rw [hrun, hother, ← compare_text_number ht.wellFormed hs.wellFormed]
          exact Std.OrientedOrd.eq_swap (a := digits)
  | text chars =>
      obtain ⟨hrun, rfl⟩ := hs.of_text
      cases t with
      | number others =>
          obtain ⟨hother, -⟩ := ht.of_number
          rw [hrun, hother, compare_text_number hs.wellFormed ht.wellFormed]
      | text chars' =>
          obtain ⟨hother, rfl⟩ := ht.of_text
          rw [hrun, hother]
          have hbytes := compare_toList_eq_compare_utf8 (.ofList run) (.ofList other)
          rw [String.toList_ofList, String.toList_ofList] at hbytes
          exact hbytes

theorem compare_eq_compareLex {runs others : List (List Char)} {tokens tokens' : List VersionToken}
    (h : List.Forall₂ Reads runs tokens) (h' : List.Forall₂ Reads others tokens') :
    Ord.compare tokens tokens' = List.compareLex compareRuns runs others := by
  induction h generalizing others tokens' with
  | nil => cases h' <;> rfl
  | cons hrun _ ih =>
      cases h' with
      | nil => rfl
      | cons hother hrest =>
          rw [List.compare_cons_cons, List.compareLex_cons_cons, compare_eq_compareRuns hrun hother,
            ih hrest]

end VersionToken

namespace Version

/-- No pre-release comes after every pre-release. -/
def Runs.comparePreRelease : Option (List (List Char)) → Option (List (List Char)) → Ordering
  | none, none => .eq
  | none, some _ => .gt
  | some _, none => .lt
  | some runs, some others => List.compareLex VersionToken.compareRuns runs others

/-- The runs of two texts part by part; in a part the runs are compared one after the other, and
where one text has no more it comes first. -/
def Runs.compare (r r' : Runs) : Ordering :=
  (List.compareLex VersionToken.compareRuns r.sequence r'.sequence).then
    ((comparePreRelease r.preRelease r'.preRelease).then
      (List.compareLex VersionToken.compareRuns (r.build.getD []) (r'.build.getD [])))

theorem comparePreRelease_eq_of_forall₂ {preRelease other : Option (List (List Char))}
    {tokens tokens' : List VersionToken} (hne : ∀ runs ∈ preRelease, runs ≠ [])
    (hne' : ∀ runs ∈ other, runs ≠ [])
    (h : List.Forall₂ VersionToken.Reads (preRelease.getD []) tokens)
    (h' : List.Forall₂ VersionToken.Reads (other.getD []) tokens') :
    comparePreRelease tokens tokens' = Runs.comparePreRelease preRelease other := by
  have hcompare := VersionToken.compare_eq_compareLex h h'
  cases preRelease with
  | none =>
      cases h
      cases other with
      | none =>
          cases h'
          rfl
      | some others =>
          obtain ⟨run, rest, rfl⟩ := List.exists_cons_of_ne_nil (hne' others rfl)
          cases h'
          rfl
  | some runs =>
      obtain ⟨run, rest, rfl⟩ := List.exists_cons_of_ne_nil (hne runs rfl)
      cases h
      cases other with
      | none =>
          cases h'
          rfl
      | some others =>
          obtain ⟨run, rest, rfl⟩ := List.exists_cons_of_ne_nil (hne' others rfl)
          cases h'
          exact hcompare

theorem Runs.ReadAs.compare_eq {r r' : Runs} {a b : Version} (ha : r.ReadAs a) (hb : r'.ReadAs b)
    (hne : ∀ runs ∈ r.preRelease, runs ≠ []) (hne' : ∀ runs ∈ r'.preRelease, runs ≠ []) :
    Ord.compare a b = r.compare r' := by
  have hsequence := VersionToken.compare_eq_compareLex ha.sequence hb.sequence
  have hpreRelease := comparePreRelease_eq_of_forall₂ hne hne' ha.preRelease hb.preRelease
  have hbuild := VersionToken.compare_eq_compareLex ha.build hb.build
  rw [Runs.compare, ← hsequence, ← hpreRelease, ← hbuild]
  rfl

/-- Versions are compared by the runs of their texts. A text has its runs in one way only. -/
theorem compare_eq_compare_runs {s t : String} {a b : Version} (ha : parse s = .ok a)
    (hb : parse t = .ok b) :
    ∃ r r' : Runs, (∀ q : Runs, q.Of s.toList ↔ q = r) ∧ (∀ q : Runs, q.Of t.toList ↔ q = r') ∧
      Ord.compare a b = r.compare r' := by
  obtain ⟨hs, hreads⟩ := parse_eq_ok_iff.mp ha
  obtain ⟨ht, hreads'⟩ := parse_eq_ok_iff.mp hb
  refine ⟨runsOf s.toList, runsOf t.toList, fun q => Runs.of_iff.trans eq_comm,
    fun q => Runs.of_iff.trans eq_comm, ?_⟩
  exact (ofRuns_runsOf_eq_iff.mp hreads).2.compare_eq (ofRuns_runsOf_eq_iff.mp hreads').2
    hs.ne_nil_of_mem_preRelease ht.ne_nil_of_mem_preRelease

/-- Zeros at the front of a number do not count, and a text before the digits comes before a number
in the pre-release. -/
theorem compare_runs_of_leading_zeros :
    let a : Version :=
      ⟨"1.007-!2", [.number ['1'], .number ['7']], [.text ['!'], .number ['2']], []⟩
    let b : Version := ⟨"01.7-0+x", [.number ['1'], .number ['7']], [.number ['0']], [.text ['x']]⟩
    parse "1.007-!2" = .ok a ∧ parse "01.7-0+x" = .ok b ∧ Ord.compare a b = .lt ∧
      ∃ r r' : Runs, (∀ q : Runs, q.Of "1.007-!2".toList ↔ q = r) ∧
        (∀ q : Runs, q.Of "01.7-0+x".toList ↔ q = r') ∧ Ord.compare a b = r.compare r' := by
  intro a b
  have ha : parse "1.007-!2" = .ok a := by decide +kernel
  have hb : parse "01.7-0+x" = .ok b := by decide +kernel
  exact ⟨ha, hb, by decide, compare_eq_compare_runs ha hb⟩

end Version

end ModuleSearch
