import ModuleSearch.Proofs.Version.Tokens

/-!
# The order of versions

Numbers are compared by value, and a number and a text, or two texts, as texts. On tokens as such
that is no linear order. On the tokens of a version it is one, since a text never starts with a
digit: all numbers stand between the texts that start with a character before the digits and those
that start with one after them. `VersionToken.place` is where a token stands, and comparing
versions is comparing their places (`Version.compare_eq_compare_place`).
-/

namespace ModuleSearch

attribute [local instance] lexOrd

/-- Lists are compared as the lists of what stands for their items. -/
theorem compare_eq_compare_map {α β : Type} [Ord α] [Ord β] {f : α → β} {p : α → Prop}
    (h : ∀ a b, p a → p b → compare a b = compare (f a) (f b)) {xs ys : List α}
    (hxs : ∀ a ∈ xs, p a) (hys : ∀ b ∈ ys, p b) :
    compare xs ys = compare (xs.map f) (ys.map f) := by
  induction xs generalizing ys with
  | nil => cases ys <;> rfl
  | cons a xs ih =>
      cases ys with
      | nil => rfl
      | cons b ys =>
          obtain ⟨ha, hxs⟩ := List.forall_mem_cons.mp hxs
          obtain ⟨hb, hys⟩ := List.forall_mem_cons.mp hys
          rw [List.map_cons, List.map_cons, List.compare_cons_cons, List.compare_cons_cons,
            h a b ha hb, ih hxs hys]

theorem compare_of_lt {c d : Char} (h : c < d) : compare c d = .lt :=
  compareOfLessAndEq_eq_lt.mpr h

theorem compare_of_gt {c d : Char} (h : d < c) : compare c d = .gt :=
  Std.OrientedCmp.gt_of_lt (compare_of_lt h)

namespace VersionToken

/-- Numbers stand in the middle, ordered by length and then by their digits. -/
def place : VersionToken → Nat × Nat × List Char
  | number digits => (1, digits.length, digits)
  | text chars => (if chars.head?.all (· < '0') then 0 else 2, 0, chars)

variable {c d : Char} {digits chars chars' : List Char}

theorem place_low (h : c < '0') (cs : List Char) : (text (c :: cs)).place = (0, 0, c :: cs) := by
  simp [place, h]

theorem place_high (h : ¬ c < '0') (cs : List Char) : (text (c :: cs)).place = (2, 0, c :: cs) := by
  simp [place, h]

theorem lt_of_low (hc : c < '0') (hd : ¬ d < '0') : c < d := by
  have hzero : '0'.toNat ≤ d.toNat := UInt32.le_iff_toNat_le.mp (Char.not_lt.mp hd)
  have hlow : c.toNat < '0'.toNat := UInt32.lt_iff_toNat_lt.mp hc
  exact UInt32.lt_iff_toNat_lt.mpr (Nat.lt_of_lt_of_le hlow hzero)

theorem not_low_of_isDigit (hd : d.isDigit = true) : ¬ d < '0' := by
  have hbounds := Char.isDigit_iff_toNat.mp hd
  exact Char.not_lt.mpr (UInt32.le_iff_toNat_le.mpr hbounds.1)

theorem digit_lt (hd : d.isDigit = true) (hc : c.isDigit = false) (hlow : ¬ c < '0') : d < c := by
  have hbounds := Char.isDigit_iff_toNat.mp hd
  have hzero : '0'.toNat ≤ c.toNat := UInt32.le_iff_toNat_le.mp (Char.not_lt.mp hlow)
  have hnine : ¬ c.toNat ≤ '9'.toNat := by
    intro hle
    have hdigit : c.isDigit = true := Char.isDigit_iff_toNat.mpr ⟨hzero, hle⟩
    simp [hdigit] at hc
  exact UInt32.lt_iff_toNat_lt.mpr (Nat.lt_of_le_of_lt hbounds.2 (Nat.lt_of_not_le hnine))

/-- A number and a text differ in their first character. -/
theorem compare_number_text (hs : (number digits).WellFormed) (ht : (text chars).WellFormed) :
    Ord.compare digits chars = Ord.compare (number digits).place (text chars).place := by
  cases hs with
  | number hne hdigits _ =>
      cases ht with
      | text hne' hchars =>
          obtain ⟨d, ds, rfl⟩ := List.exists_cons_of_ne_nil hne
          obtain ⟨c, cs, rfl⟩ := List.exists_cons_of_ne_nil hne'
          have hd := hdigits d (by simp)
          have hc := hchars c (by simp)
          -- `c` is no digit, so it stands before all digits or after all of them.
          rw [List.compare_cons_cons]
          by_cases hlow : c < '0'
          · rw [compare_of_gt (lt_of_low hlow (not_low_of_isDigit hd)), place_low hlow]
            rfl
          · rw [compare_of_lt (digit_lt hd hc hlow), place_high hlow]
            rfl

theorem compare_text_text (hs : (text chars).WellFormed) (ht : (text chars').WellFormed) :
    Ord.compare chars chars' = Ord.compare (text chars).place (text chars').place := by
  cases hs with
  | text hne _ =>
      cases ht with
      | text hne' _ =>
          obtain ⟨c, cs, rfl⟩ := List.exists_cons_of_ne_nil hne
          obtain ⟨d, ds, rfl⟩ := List.exists_cons_of_ne_nil hne'
          by_cases hc : c < '0' <;> by_cases hd : d < '0'
          · rw [place_low hc, place_low hd]
            rfl
          · rw [List.compare_cons_cons, compare_of_lt (lt_of_low hc hd), place_low hc, place_high hd]
            rfl
          · rw [List.compare_cons_cons, compare_of_gt (lt_of_low hd hc), place_high hc, place_low hd]
            rfl
          · rw [place_high hc, place_high hd]
            rfl

/-- Tokens are compared by their places. -/
theorem compare_eq_compare_place {s t : VersionToken} (hs : s.WellFormed) (ht : t.WellFormed) :
    Ord.compare s t = Ord.compare s.place t.place := by
  cases s with
  | number digits =>
      cases t with
      | number digits' => rfl
      | text chars => exact compare_number_text hs ht
  | text chars =>
      cases t with
      | number digits =>
          change Ord.compare chars digits = _
          rw [Std.OrientedOrd.eq_swap, compare_number_text ht hs, ← Std.OrientedOrd.eq_swap]
      | text chars' => exact compare_text_text hs ht

/-- No two tokens stand at one place. -/
theorem place_injective {s t : VersionToken} (h : s.place = t.place) : s = t := by
  cases s with
  | number digits =>
      cases t with
      | number digits' => exact congrArg (fun p => number p.2.2) h
      | text chars =>
          have hrank : 1 = if chars.head?.all (· < '0') then 0 else 2 := congrArg Prod.fst h
          split at hrank <;> simp at hrank
  | text chars =>
      cases t with
      | number digits =>
          have hrank : (if chars.head?.all (· < '0') then 0 else 2) = 1 := congrArg Prod.fst h
          split at hrank <;> simp at hrank
      | text chars' => exact congrArg (fun p => text p.2.2) h

theorem places_injective {xs ys : List VersionToken} (h : xs.map place = ys.map place) : xs = ys :=
  List.map_injective_iff.mpr (fun _ _ => place_injective) h

theorem hashInputs_append_injective {s t : VersionToken} {rest rest' : List HashInput}
    (h : s.hashInputs ++ rest = t.hashInputs ++ rest') : s = t ∧ rest = rest' := by
  cases s with
  | number digits =>
      cases t with
      | number digits' => simpa [hashInputs, String.ofList_inj] using h
      | text chars => simp [hashInputs] at h
  | text chars =>
      cases t with
      | number digits => simp [hashInputs] at h
      | text chars' => simpa [hashInputs, String.ofList_inj] using h

theorem flatMap_hashInputs_append_injective {xs ys : List VersionToken}
    {rest rest' : List HashInput} (hlength : xs.length = ys.length)
    (h : xs.flatMap hashInputs ++ rest = ys.flatMap hashInputs ++ rest') :
    xs = ys ∧ rest = rest' := by
  induction xs generalizing ys with
  | nil =>
      obtain rfl := List.eq_nil_of_length_eq_zero hlength.symm
      exact ⟨rfl, h⟩
  | cons s xs ih =>
      cases ys with
      | nil => simp at hlength
      | cons t ys =>
          simp only [List.flatMap_cons, List.append_assoc] at h
          obtain ⟨rfl, hinputs⟩ := hashInputs_append_injective h
          obtain ⟨rfl, hrest⟩ := ih (by simpa using hlength) hinputs
          exact ⟨rfl, hrest⟩

/-- The length at the front tells the tokens of a list from what follows them. -/
theorem hashInputsOf_append_injective {xs ys : List VersionToken} {rest rest' : List HashInput}
    (h : hashInputsOf xs ++ rest = hashInputsOf ys ++ rest') : xs = ys ∧ rest = rest' := by
  obtain ⟨hlength, hinputs⟩ := List.cons.inj h
  exact flatMap_hashInputs_append_injective (HashInput.length.inj hlength) hinputs

end VersionToken

namespace Version

/-- Where the parts of a version stand. A release stands after all of its pre-releases. -/
def place (v : Version) :
    List (Nat × Nat × List Char) × (Bool × List (Nat × Nat × List Char)) ×
      List (Nat × Nat × List Char) :=
  (v.sequence.map VersionToken.place,
    (v.preRelease.isEmpty, v.preRelease.map VersionToken.place),
    v.build.map VersionToken.place)

theorem comparePreRelease_eq (xs ys : List VersionToken) :
    comparePreRelease xs ys = (Ord.compare xs.isEmpty ys.isEmpty).then (Ord.compare xs ys) := by
  cases xs <;> cases ys <;> rfl

theorem compare_eq_compare_place {a b : Version} (ha : a.WellFormed) (hb : b.WellFormed) :
    Ord.compare a b = Ord.compare a.place b.place := by
  change compare a b = _
  have htokens := fun s t => @VersionToken.compare_eq_compare_place s t
  rw [compare, comparePreRelease_eq,
    compare_eq_compare_map htokens ha.sequence hb.sequence,
    compare_eq_compare_map htokens ha.preRelease hb.preRelease,
    compare_eq_compare_map htokens ha.build hb.build]
  rfl

theorem key_eq_iff {a b : Version} : a.key = b.key ↔
    a.sequence = b.sequence ∧ a.preRelease = b.preRelease ∧ a.build = b.build := by
  rw [key, key, Prod.mk.injEq, Prod.mk.injEq]

theorem place_eq_iff {a b : Version} : a.place = b.place ↔ a.key = b.key := by
  constructor
  · intro h
    have hsequence := VersionToken.places_injective (congrArg Prod.fst h)
    have hpreRelease := VersionToken.places_injective (congrArg (fun p => p.2.1.2) h)
    have hbuild := VersionToken.places_injective (congrArg (fun p => p.2.2) h)
    exact key_eq_iff.mpr ⟨hsequence, hpreRelease, hbuild⟩
  · intro h
    obtain ⟨hsequence, hpreRelease, hbuild⟩ := key_eq_iff.mp h
    rw [place, place, hsequence, hpreRelease, hbuild]

theorem hashInputs_eq_iff {a b : Version} : a.hashInputs = b.hashInputs ↔ a.key = b.key := by
  constructor
  · intro h
    simp only [hashInputs, List.append_assoc] at h
    obtain ⟨hsequence, h⟩ := VersionToken.hashInputsOf_append_injective h
    obtain ⟨hpreRelease, h⟩ := VersionToken.hashInputsOf_append_injective h
    rw [← List.append_nil (VersionToken.hashInputsOf a.build),
      ← List.append_nil (VersionToken.hashInputsOf b.build)] at h
    obtain ⟨hbuild, -⟩ := VersionToken.hashInputsOf_append_injective h
    exact key_eq_iff.mpr ⟨hsequence, hpreRelease, hbuild⟩
  · intro h
    obtain ⟨hsequence, hpreRelease, hbuild⟩ := key_eq_iff.mp h
    rw [hashInputs, hashInputs, hsequence, hpreRelease, hbuild]

theorem compare_eq_iff {a b : Version} (ha : a.WellFormed) (hb : b.WellFormed) :
    Ord.compare a b = .eq ↔ a.key = b.key := by
  rw [compare_eq_compare_place ha hb, Std.LawfulEqOrd.compare_eq_iff_eq, place_eq_iff]

theorem beq_iff_compare_eq {a b : Version} : (a == b) = true ↔ Ord.compare a b = .eq := by
  change (Ord.compare a b == .eq) = true ↔ _
  exact beq_iff_eq

/-- The laws of a linear order at three versions, and what it means for two to be equal. -/
structure OrderLaws (a b c : Version) : Prop where
  refl : Ord.compare a a = .eq
  swap : Ord.compare b a = (Ord.compare a b).swap
  total : (Ord.compare a b).isLE ∨ (Ord.compare b a).isLE
  antisymm : (Ord.compare a b).isLE → (Ord.compare b a).isLE → Ord.compare a b = .eq
  trans : (Ord.compare a b).isLE → (Ord.compare b c).isLE → (Ord.compare a c).isLE
  equal_iff : Ord.compare a b = .eq ↔ a.key = b.key
  beq_iff : (a == b) = true ↔ a.key = b.key
  hash_iff : a.hashInputs = b.hashInputs ↔ a.key = b.key

/-- Versions that can be read are linearly ordered. Those that compare equal are those with the same
tokens, which are also those that are equal and those that a hasher cannot tell apart. -/
theorem orderLaws_of_parse {s t u : String} {a b c : Version} (ha : parse s = .ok a)
    (hb : parse t = .ok b) (hc : parse u = .ok c) : OrderLaws a b c := by
  have ha := wellFormed_of_parse ha
  have hb := wellFormed_of_parse hb
  have hc := wellFormed_of_parse hc
  have hequal := compare_eq_iff ha hb
  have hswap : Ord.compare b a = (Ord.compare a b).swap := by
    rw [compare_eq_compare_place ha hb, compare_eq_compare_place hb ha]
    exact Std.OrientedOrd.eq_swap
  refine ⟨?_, hswap, ?_, ?_, ?_, hequal, beq_iff_compare_eq.trans hequal, hashInputs_eq_iff⟩
  · exact (compare_eq_iff ha ha).mpr rfl
  · rw [hswap]
    cases Ord.compare a b <;> decide
  · rw [hswap]
    cases Ord.compare a b <;> decide
  · rw [compare_eq_compare_place ha hb, compare_eq_compare_place hb hc,
      compare_eq_compare_place ha hc]
    exact Std.TransOrd.isLE_trans

/-- At the second place stand a text before the digits, a number, and a text after the digits. -/
theorem orderLaws_of_mixed_tokens :
    let a : Version := ⟨"1.!2", [.number ['1'], .text ['!'], .number ['2']], [], []⟩
    let b : Version := ⟨"1.020-ea", [.number ['1'], .number ['2', '0']], [.text ['e', 'a']], []⟩
    let c : Version := ⟨"1.x+3", [.number ['1'], .text ['x']], [], [.number ['3']]⟩
    parse "1.!2" = .ok a ∧ parse "1.020-ea" = .ok b ∧ parse "1.x+3" = .ok c ∧
      Ord.compare a b = .lt ∧ Ord.compare b c = .lt ∧ Ord.compare a c = .lt ∧
      OrderLaws a b c := by
  intro a b c
  have ha : parse "1.!2" = .ok a := by decide +kernel
  have hb : parse "1.020-ea" = .ok b := by decide +kernel
  have hc : parse "1.x+3" = .ok c := by decide +kernel
  exact ⟨ha, hb, hc, by decide, by decide, by decide, orderLaws_of_parse ha hb hc⟩

end Version

end ModuleSearch
