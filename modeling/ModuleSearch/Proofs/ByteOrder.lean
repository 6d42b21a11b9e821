import Mathlib.Tactic.SplitIfs

/-!
# The bytes of strings

Strings are compared character by character. That is the order of their UTF-8 bytes:
`utf8_lt`, `compare_toList_eq_compare_utf8`. A byte below 128 is a character of its own, so a
string can be cut there: `exists_append_of_utf8_eq`, `exists_append_cons_of_utf8_eq`.
-/

namespace ModuleSearch

def utf8 (text : String) : List UInt8 := text.toUTF8.data.toList

theorem utf8_eq_flatMap (text : String) :
    utf8 text = text.toList.flatMap String.utf8EncodeChar := by
  rw [utf8, String.toUTF8_eq_toByteArray, ← String.utf8Encode_toList, List.utf8Encode,
    List.toList_data_toByteArray]

/-- Whatever follows, the bytes of two characters are in the order of the characters. -/
theorem utf8EncodeChar_append_lt {c d : Char} (h : c < d) (xs ys : List UInt8) :
    String.utf8EncodeChar c ++ xs < String.utf8EncodeChar d ++ ys := by
  have hlt : c.val.toNat < d.val.toNat := h
  have hbound : d.val.toNat < 0x110000 := by
    have hvalid := d.valid
    simp only [UInt32.isValidChar, Nat.isValidChar] at hvalid
    omega
  simp only [String.utf8EncodeChar]
  -- the length of the encoding does not decrease from `c` to `d`
  split_ifs <;> simp (disch := omega) only [List.cons_append, List.nil_append,
    List.cons_lt_cons_iff, UInt8.lt_iff_toNat_lt, ← UInt8.toNat_inj, UInt8.toNat_ofNat',
    Nat.mod_eq_of_lt] <;> omega

theorem nil_lt_utf8EncodeChar_append (c : Char) (xs : List UInt8) :
    [] < String.utf8EncodeChar c ++ xs := by
  cases h : String.utf8EncodeChar c with
  | nil =>
      have hlength := String.length_utf8EncodeChar c
      have hpos := c.utf8Size_pos
      rw [h, List.length_nil] at hlength
      omega
  | cons b bytes => exact List.nil_lt_cons b (bytes ++ xs)

theorem flatMap_utf8EncodeChar_lt {xs ys : List Char} (h : xs < ys) :
    xs.flatMap String.utf8EncodeChar < ys.flatMap String.utf8EncodeChar := by
  induction h with
  | nil =>
      rw [List.flatMap_cons]
      exact nil_lt_utf8EncodeChar_append _ _
  | rel h =>
      rw [List.flatMap_cons, List.flatMap_cons]
      exact utf8EncodeChar_append_lt h _ _
  | cons _ ih =>
      rw [List.flatMap_cons, List.flatMap_cons]
      exact List.append_left_lt ih

theorem utf8_lt {s t : String} (h : s < t) : utf8 s < utf8 t := by
  rw [utf8_eq_flatMap, utf8_eq_flatMap]
  exact flatMap_utf8EncodeChar_lt h

theorem utf8_injective : Function.Injective utf8 := by
  intro s t h
  refine String.le_antisymm (String.not_lt.mp fun hlt => ?_) (String.not_lt.mp fun hlt => ?_)
  · exact List.lt_irrefl _ (h ▸ utf8_lt hlt)
  · exact List.lt_irrefl _ (h ▸ utf8_lt hlt)

/-- A list compares as less than those after it. -/
theorem compare_eq_lt_of_lt {α : Type} [LT α] [Ord α] [Std.ReflOrd α]
    (h : ∀ a b : α, a < b → compare a b = .lt) {xs ys : List α} (hlt : xs < ys) :
    compare xs ys = .lt := by
  induction hlt with
  | nil => rfl
  | rel hab => rw [List.compare_cons_cons, h _ _ hab, Ordering.lt_then]
  | cons _ ih => rw [List.compare_cons_cons, Std.ReflOrd.compare_self, ih, Ordering.eq_then]

/-- Comparing texts by their characters is comparing them by their bytes. -/
theorem compare_toList_eq_compare_utf8 (s t : String) :
    compare s.toList t.toList = compare (utf8 s) (utf8 t) := by
  have hlt : ∀ {s t : String}, s < t →
      compare s.toList t.toList = .lt ∧ compare (utf8 s) (utf8 t) = .lt := by
    intro s t h
    exact ⟨compare_eq_lt_of_lt (fun _ _ => compareOfLessAndEq_eq_lt.mpr) h,
      compare_eq_lt_of_lt (fun _ _ => compareOfLessAndEq_eq_lt.mpr) (utf8_lt h)⟩
  rcases Decidable.em (s < t) with h | h
  · rw [(hlt h).1, (hlt h).2]
  · rcases Decidable.em (t < s) with h' | h'
    · rw [Std.OrientedOrd.eq_swap, (hlt h').1, Std.OrientedOrd.eq_swap, (hlt h').2]
    · obtain rfl := String.le_antisymm (String.not_lt.mp h') (String.not_lt.mp h)
      rw [Std.ReflOrd.compare_self, Std.ReflOrd.compare_self]

/-! ## Cutting strings at their bytes -/

theorem utf8_append (s t : String) : utf8 (s ++ t) = utf8 s ++ utf8 t := by
  rw [utf8_eq_flatMap, String.toList_append, List.flatMap_append, ← utf8_eq_flatMap,
    ← utf8_eq_flatMap]

theorem utf8EncodeChar_of_lt {c : Char} (h : c.toNat < 128) :
    String.utf8EncodeChar c = [UInt8.ofNat c.toNat] := by
  have hval : c.val.toNat ≤ 127 := Nat.le_of_lt_succ h
  rw [String.utf8EncodeChar, if_pos hval]
  rfl

/-- No byte of a character from 128 on is one of a character below. -/
theorem le_of_mem_utf8EncodeChar {c : Char} (h : 128 ≤ c.toNat) :
    ∀ b ∈ String.utf8EncodeChar c, 128 ≤ b.toNat := by
  have hval : ¬ c.val.toNat ≤ 127 := Nat.not_le_of_lt h
  have hbound : c.val.toNat < 0x110000 := by
    have hvalid := c.valid
    simp only [UInt32.isValidChar, Nat.isValidChar] at hvalid
    omega
  simp only [String.utf8EncodeChar, if_neg hval]
  split_ifs <;> simp only [List.mem_cons, List.not_mem_nil, or_false, forall_eq_or_imp, forall_eq,
    UInt8.toNat_ofNat'] <;> omega

/-- A byte below 128 is no later byte of a character. -/
theorem eq_nil_of_utf8EncodeChar_eq {c : Char} {b : UInt8} {front tail : List UInt8}
    (h : String.utf8EncodeChar c = front ++ b :: tail) (hb : b.toNat < 128) : front = [] := by
  have hlow : c.toNat < 128 := by
    refine Nat.lt_of_not_le fun hhigh => ?_
    have hle := le_of_mem_utf8EncodeChar hhigh b (by simp [h])
    omega
  rw [utf8EncodeChar_of_lt hlow] at h
  exact (List.append_eq_singleton_iff.mp h.symm).elim And.left fun hcons => by simp at hcons

/-- Before a byte below 128 the bytes of characters can be cut. -/
theorem exists_append_of_flatMap_utf8EncodeChar_eq {chars : List Char} {front bytes : List UInt8}
    (h : chars.flatMap String.utf8EncodeChar = front ++ bytes)
    (hbytes : ∀ b ∈ bytes.head?, b.toNat < 128) :
    ∃ before after : List Char, before ++ after = chars ∧
      before.flatMap String.utf8EncodeChar = front ∧
      after.flatMap String.utf8EncodeChar = bytes := by
  induction chars generalizing front with
  | nil =>
      obtain ⟨rfl, rfl⟩ := List.append_eq_nil_iff.mp h.symm
      exact ⟨[], [], rfl, rfl, rfl⟩
  | cons c rest ih =>
      rw [List.flatMap_cons] at h
      rcases List.append_eq_append_iff.mp h with ⟨others, rfl, hrest⟩ | ⟨tail, hc, rfl⟩
      · obtain ⟨before, after, rfl, rfl, hafter⟩ := ih hrest
        exact ⟨c :: before, after, rfl, List.flatMap_cons, hafter⟩
      · cases tail with
        | nil => exact ⟨[c], rest, rfl, by rw [List.flatMap_singleton, hc, List.append_nil], rfl⟩
        | cons b tail =>
            obtain rfl := eq_nil_of_utf8EncodeChar_eq hc (hbytes b rfl)
            exact ⟨[], c :: rest, rfl, rfl, by rw [List.flatMap_cons, hc, List.nil_append]⟩

theorem lt_of_mem_utf8 {s : String} (h : ∀ c ∈ s.toList, c.toNat < 128) :
    ∀ b ∈ utf8 s, b.toNat < 128 := by
  intro b hb
  rw [utf8_eq_flatMap] at hb
  obtain ⟨c, hc, hmem⟩ := List.mem_flatMap.mp hb
  rw [utf8EncodeChar_of_lt (h c hc), List.mem_singleton] at hmem
  rw [hmem, UInt8.toNat_ofNat', Nat.mod_eq_of_lt (Nat.lt_trans (h c hc) (by decide))]
  exact h c hc

theorem exists_append_of_utf8_eq {s : String} {front bytes : List UInt8}
    (h : utf8 s = front ++ bytes) (hbytes : ∀ b ∈ bytes.head?, b.toNat < 128) :
    ∃ before after, s = before ++ after ∧ utf8 before = front ∧ utf8 after = bytes := by
  rw [utf8_eq_flatMap] at h
  obtain ⟨before, after, hchars, hbefore, hafter⟩ :=
    exists_append_of_flatMap_utf8EncodeChar_eq h hbytes
  refine ⟨.ofList before, .ofList after, ?_, ?_, ?_⟩
  · rw [← String.ofList_append, hchars, String.ofList_toList]
  · rw [utf8_eq_flatMap, String.toList_ofList, hbefore]
  · rw [utf8_eq_flatMap, String.toList_ofList, hafter]

/-- A string whose last bytes are those of an ASCII text ends with that text. -/
theorem exists_eq_append_of_utf8_eq {s ending : String} {front : List UInt8}
    (h : utf8 s = front ++ utf8 ending) (hending : ∀ c ∈ ending.toList, c.toNat < 128) :
    ∃ before, s = before ++ ending := by
  obtain ⟨before, after, rfl, -, hafter⟩ := exists_append_of_utf8_eq h fun b hb =>
    lt_of_mem_utf8 hending b (List.mem_of_mem_head? hb)
  exact ⟨before, by rw [utf8_injective hafter]⟩

/-- A byte below 128 is the character that it stands for. -/
theorem eq_cons_of_flatMap_utf8EncodeChar_eq {chars : List Char} {c : Char} {tail : List UInt8}
    (hc : c.toNat < 128)
    (h : chars.flatMap String.utf8EncodeChar = String.utf8EncodeChar c ++ tail) :
    ∃ rest : List Char, chars = c :: rest ∧ rest.flatMap String.utf8EncodeChar = tail := by
  have hbyte : ∀ d : Char, d.toNat < 128 → (UInt8.ofNat d.toNat).toNat = d.toNat := by
    intro d hd
    rw [UInt8.toNat_ofNat', Nat.mod_eq_of_lt (Nat.lt_trans hd (by decide))]
  rw [utf8EncodeChar_of_lt hc, List.singleton_append] at h
  cases chars with
  | nil => cases h
  | cons d rest =>
      rw [List.flatMap_cons] at h
      by_cases hd : d.toNat < 128
      · rw [utf8EncodeChar_of_lt hd, List.singleton_append] at h
        obtain ⟨hfirst, hrest⟩ := List.cons.inj h
        have hnat := congrArg UInt8.toNat hfirst
        rw [hbyte d hd, hbyte c hc] at hnat
        exact ⟨rest, by rw [Char.toNat_inj.mp hnat], hrest⟩
      · have hhigh := le_of_mem_utf8EncodeChar (Nat.le_of_not_lt hd)
        cases hbytes : String.utf8EncodeChar d with
        | nil => exact absurd hbytes (by simp)
        | cons b bytes =>
            rw [hbytes, List.cons_append] at h
            have hle := hhigh b (by simp [hbytes])
            rw [(List.cons.inj h).1, hbyte c hc] at hle
            omega

/-- A string can be cut at a byte below 128. -/
theorem exists_append_cons_of_utf8_eq {s : String} {c : Char} (hc : c.toNat < 128)
    {front tail : List UInt8} (h : utf8 s = front ++ (String.utf8EncodeChar c ++ tail)) :
    ∃ before after, s = before ++ String.singleton c ++ after ∧ utf8 before = front ∧
      utf8 after = tail := by
  have hfirst : ∀ b ∈ (String.utf8EncodeChar c ++ tail).head?, b.toNat < 128 := by
    rw [utf8EncodeChar_of_lt hc]
    simpa [Nat.mod_eq_of_lt (Nat.lt_trans hc (by decide : 128 < 256))] using hc
  obtain ⟨before, bytes, rfl, hbefore, hbytes⟩ := exists_append_of_utf8_eq h hfirst
  rw [utf8_eq_flatMap] at hbytes
  obtain ⟨rest, hrest, htail⟩ := eq_cons_of_flatMap_utf8EncodeChar_eq hc hbytes
  refine ⟨before, .ofList rest, ?_, hbefore, ?_⟩
  · rw [← String.toList_inj]
    simp [hrest]
  · rw [utf8_eq_flatMap, String.toList_ofList, htail]

/-! ## Bytes that are a text -/

theorem fromUTF8?_eq_some_iff {content : ByteArray} {text : String} :
    String.fromUTF8? content = some text ↔ text.toUTF8 = content := by
  constructor
  · intro h
    rw [String.fromUTF8?] at h
    split at h
    · rw [← Option.some.inj h]
      rfl
    · cases h
  · rintro rfl
    exact dif_pos text.isValidUTF8

theorem toUTF8_eq_iff {text : String} {content : ByteArray} :
    text.toUTF8 = content ↔ utf8 text = content.data.toList := by
  rw [utf8, Array.toList_inj, ByteArray.ext_iff]

/-- Bytes with a line feed between them are a text if both are. -/
theorem fromUTF8?_append_feed {x y : ByteArray} {text : String} :
    String.fromUTF8? (x ++ "\n".toUTF8 ++ y) = some text ↔ ∃ front back,
      String.fromUTF8? x = some front ∧ String.fromUTF8? y = some back ∧
        text = front ++ "\n" ++ back := by
  simp only [fromUTF8?_eq_some_iff]
  constructor
  · intro h
    have hfeed : utf8 "\n" = String.utf8EncodeChar '\n' := by
      rw [utf8_eq_flatMap]
      rfl
    have hbytes : utf8 text =
        x.data.toList ++ (String.utf8EncodeChar '\n' ++ y.data.toList) := by
      rw [toUTF8_eq_iff.mp h, ← hfeed]
      simp [utf8]
    obtain ⟨front, back, rfl, hfront, hback⟩ := exists_append_cons_of_utf8_eq (by decide) hbytes
    exact ⟨front, back, toUTF8_eq_iff.mpr hfront, toUTF8_eq_iff.mpr hback, rfl⟩
  · rintro ⟨front, back, rfl, rfl, rfl⟩
    simp

end ModuleSearch
