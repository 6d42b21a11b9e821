import ModuleSearch.Proofs.ByteOrder
import ModuleSearch.Url.Escape

/-!
# Escapes can be read back

Different names are written differently in the path of a file, and none of them with a slash:
`escape_injective`. A text of plain characters is written as it is: `escape_of_plain`.
-/

namespace ModuleSearch.Url

variable {part : Part} {text other : List Char} {byte byte' : UInt8}

theorem loop_toList (bytes : ByteArray) (i : Nat) (before : List UInt8) :
    ByteArray.toList.loop bytes i before = before.reverse ++ bytes.data.toList.drop i := by
  fun_induction ByteArray.toList.loop bytes i before with
  | case1 i before h ih =>
      have hdrop : bytes.data.toList.drop i = bytes.get! i :: bytes.data.toList.drop (i + 1) := by
        simpa [ByteArray.get!, h] using List.drop_eq_getElem_cons (l := bytes.data.toList) h
      rw [ih, List.reverse_cons, List.append_assoc, hdrop]
      rfl
  | case2 i before h =>
      rw [List.drop_eq_nil_iff.mpr (Nat.le_of_not_gt h), List.append_nil]

theorem escape_eq (part : Part) (text : List Char) :
    escape part text = (text.flatMap String.utf8EncodeChar).flatMap (escapeByte part) := by
  have hbytes : (String.ofList text).toUTF8.toList = utf8 (String.ofList text) :=
    loop_toList _ 0 []
  rw [escape, hbytes, utf8_eq_flatMap, String.toList_ofList]

/-! ## Names of files -/

theorem upperDigit_inj {m n : Nat} (hm : m < 16) (hn : n < 16)
    (h : Text.Hex.upperDigit m = Text.Hex.upperDigit n) : m = n := by
  have hvalue := congrArg Text.Hex.value? h
  rw [Text.Hex.value?_upperDigit hm, Text.Hex.value?_upperDigit hn] at hvalue
  exact Option.some.inj hvalue

theorem percent_inj (h : percent byte = percent byte') : byte = byte' := by
  have hbound := byte.toNat_lt
  have hbound' := byte'.toNat_lt
  simp only [percent, List.cons.injEq, true_and, and_true] at h
  have hhigh := upperDigit_inj (by omega) (by omega) h.1
  have hlow := upperDigit_inj (by omega) (by omega) h.2
  rw [← UInt8.toNat_inj]
  omega

theorem lt_of_escapes (h : part.escapes byte = false) : byte.toNat < 127 := by
  simp only [Part.escapes, Part.isControl, Bool.or_eq_false_iff, decide_eq_false_iff_not,
    UInt8.not_le] at h
  exact h.1.2

theorem toNat_ofNat_of_escapes (h : part.escapes byte = false) :
    (Char.ofNat byte.toNat).toNat = byte.toNat := by
  have hbound := lt_of_escapes h
  rw [Char.ofNat, dif_pos (.inl (by omega))]
  rfl

/-- A byte that stands for itself is no sign that is escaped. -/
theorem ne_of_escapes {sign : Char} (hsign : sign ∈ part.signs) (h : part.escapes byte = false) :
    Char.ofNat byte.toNat ≠ sign := by
  rintro rfl
  have hnat := toNat_ofNat_of_escapes h
  rw [Part.escapes, Bool.or_eq_false_iff, List.any_eq_false] at h
  exact h.2 _ hsign (beq_iff_eq.mpr hnat)

theorem escapeByte_fileName_append_inj {xs ys : List Char}
    (h : escapeByte .fileName byte ++ xs = escapeByte .fileName byte' ++ ys) :
    byte = byte' ∧ xs = ys := by
  have hpercent : '%' ∈ Part.fileName.signs := by decide
  rw [escapeByte, escapeByte] at h
  split at h <;> split at h
  · obtain ⟨hbyte, hrest⟩ := List.append_inj h rfl
    exact ⟨percent_inj hbyte, hrest⟩
  · rename_i hplain
    exact absurd (List.cons.inj h).1.symm (ne_of_escapes hpercent (by simpa using hplain))
  · rename_i hplain _
    exact absurd (List.cons.inj h).1 (ne_of_escapes hpercent (by simpa using hplain))
  · rename_i hplain hplain'
    obtain ⟨hchar, hrest⟩ := List.cons.inj h
    have hnat := congrArg Char.toNat hchar
    rw [toNat_ofNat_of_escapes (by simpa using hplain),
      toNat_ofNat_of_escapes (by simpa using hplain')] at hnat
    exact ⟨UInt8.toNat_inj.mp hnat, hrest⟩

theorem flatMap_escapeByte_inj {bytes bytes' : List UInt8}
    (h : bytes.flatMap (escapeByte .fileName) = bytes'.flatMap (escapeByte .fileName)) :
    bytes = bytes' := by
  have hne : ∀ (byte : UInt8) rest, escapeByte .fileName byte ++ rest ≠ [] := by
    intro byte rest
    rw [escapeByte]
    split <;> simp [percent]
  induction bytes generalizing bytes' with
  | nil =>
      cases bytes' with
      | nil => rfl
      | cons byte' rest' => exact absurd h.symm (hne byte' _)
  | cons byte rest ih =>
      cases bytes' with
      | nil => exact absurd h (hne byte _)
      | cons byte' rest' =>
          obtain ⟨rfl, hrest⟩ := escapeByte_fileName_append_inj h
          rw [ih hrest]

theorem escape_injective : Function.Injective (escape .fileName) := by
  intro text other h
  rw [escape_eq, escape_eq] at h
  have hbytes := flatMap_escapeByte_inj h
  rw [← String.toList_ofList (l := text), ← String.toList_ofList (l := other), ← utf8_eq_flatMap,
    ← utf8_eq_flatMap] at hbytes
  exact String.ofList_inj.mp (utf8_injective hbytes)

theorem slash_not_mem_escape (text : List Char) : '/' ∉ escape .fileName text := by
  rw [escape_eq]
  intro h
  obtain ⟨byte, -, hbyte⟩ := List.mem_flatMap.mp h
  rw [escapeByte] at hbyte
  split at hbyte
  · have hdigit : ∀ n < 16, '/' ≠ Text.Hex.upperDigit n := by decide
    have hbound := byte.toNat_lt
    simp only [percent, List.mem_cons, List.not_mem_nil, or_false] at hbyte
    rcases hbyte with h | h | h
    · cases h
    · exact hdigit _ (by omega) h
    · exact hdigit _ (by omega) h
  · rename_i hplain
    have hslash : '/' ∈ Part.fileName.signs := by decide
    exact ne_of_escapes hslash (by simpa using hplain) (List.mem_singleton.mp hbyte).symm

theorem escape_ne_nil (h : text ≠ []) : escape .fileName text ≠ [] :=
  fun hnil => h (escape_injective (hnil.trans (by rw [escape_eq]; rfl)))

/-! ## Plain texts -/

/-- A character that stands for itself. -/
def IsPlain (part : Part) (c : Char) : Prop := 32 ≤ c.toNat ∧ c.toNat < 127 ∧ c ∉ part.signs

theorem escapes_of_plain {c : Char} (h : IsPlain part c) :
    part.escapes (UInt8.ofNat c.toNat) = false := by
  obtain ⟨hlow, hhigh, hsign⟩ := h
  have hnat : (UInt8.ofNat c.toNat).toNat = c.toNat := by
    rw [UInt8.toNat_ofNat', Nat.mod_eq_of_lt (by omega)]
  rw [Part.escapes, Bool.or_eq_false_iff, List.any_eq_false]
  refine ⟨?_, fun sign hmem heq => hsign ?_⟩
  · simp [Part.isControl, UInt8.lt_iff_toNat_lt, UInt8.le_iff_toNat_le, hnat]
    omega
  · rw [hnat, beq_iff_eq] at heq
    rwa [Char.toNat_inj.mp heq] at hmem

theorem escape_of_plain (h : ∀ c ∈ text, IsPlain part c) : escape part text = text := by
  rw [escape_eq]
  induction text with
  | nil => rfl
  | cons c rest ih =>
      obtain ⟨hc, hrest⟩ := List.forall_mem_cons.mp h
      have hescapes := escapes_of_plain hc
      have hbyte : escapeByte part (UInt8.ofNat c.toNat) = [c] := by
        rw [escapeByte, hescapes, if_neg Bool.false_ne_true]
        refine congrArg (· :: []) (Char.toNat_inj.mp ?_)
        rw [toNat_ofNat_of_escapes hescapes, UInt8.toNat_ofNat', Nat.mod_eq_of_lt]
        exact Nat.lt_trans hc.2.1 (by decide)
      rw [List.flatMap_cons, List.flatMap_append, ih hrest, utf8EncodeChar_of_lt (Nat.lt_succ_of_lt hc.2.1),
        List.flatMap_singleton, hbyte]
      rfl

end ModuleSearch.Url
