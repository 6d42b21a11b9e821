import ModuleSearch.Proofs.ByteOrder
import ModuleSearch.Text.Utf8

/-!
# Reading UTF-8 back

The bytes of a text are read as that text, so only bytes that are no text are replaced:
`decodeLossy_utf8`.
-/

namespace ModuleSearch.Text.Utf8

variable {rest : List UInt8} {b : UInt8} {value missing low high n : Nat}

theorem decodeFrom_of_char {c : Char} (h : start b.toNat = .inl c) :
    decodeFrom none (b :: rest) = c :: decodeFrom none rest := by
  simp [decodeFrom, feed, h]

theorem decodeFrom_of_pending {p : Pending} (h : start b.toNat = .inr p) :
    decodeFrom none (b :: rest) = decodeFrom (some p) rest := by
  simp [decodeFrom, feed, h]

theorem decodeFrom_last (hlow : low ≤ b.toNat) (hhigh : b.toNat ≤ high) :
    decodeFrom (some ⟨value, 1, low, high⟩) (b :: rest) =
      Char.ofNat (value * 64 + b.toNat % 64) :: decodeFrom none rest := by
  simp [decodeFrom, feed, Pending.accepts, Pending.next, hlow, hhigh]

theorem decodeFrom_continued (hlow : low ≤ b.toNat) (hhigh : b.toNat ≤ high) :
    decodeFrom (some ⟨value, missing + 2, low, high⟩) (b :: rest) =
      decodeFrom (some ⟨value * 64 + b.toNat % 64, missing + 1, 0x80, 0xBF⟩) rest := by
  simp [decodeFrom, feed, Pending.accepts, Pending.next, hlow, hhigh]

/-! ## The first byte of a character -/

theorem start_of_two (hlow : 0x7F < n) (hhigh : n ≤ 0x7FF) :
    start (n / 64 % 32 + 192) = .inr ⟨n / 64, 1, 0x80, 0xBF⟩ := by
  have hvalue : n / 64 % 32 + 192 - 0xC0 = n / 64 := by omega
  rw [start, if_neg (by omega), if_neg (by omega), if_pos (by omega), hvalue]

/-- The second byte is limited so that the number is neither below 2048 nor a surrogate. -/
theorem start_of_three (hlow : 0x7FF < n) (hhigh : n ≤ 0xFFFF) (hvalid : n.isValidChar) :
    ∃ low high, start (n / 4096 % 16 + 224) = .inr ⟨n / 4096, 2, low, high⟩ ∧
      low ≤ n / 64 % 64 + 128 ∧ n / 64 % 64 + 128 ≤ high := by
  rw [Nat.isValidChar] at hvalid
  by_cases hzero : n / 4096 = 0
  · exact ⟨0xA0, 0xBF, by rw [hzero]; rfl, by omega, by omega⟩
  by_cases hsurrogate : n / 4096 = 0xD
  · exact ⟨0x80, 0x9F, by rw [hsurrogate]; rfl, by omega, by omega⟩
  · have hvalue : n / 4096 % 16 + 224 - 0xE0 = n / 4096 := by omega
    refine ⟨0x80, 0xBF, ?_, by omega, by omega⟩
    rw [start, if_neg (by omega), if_neg (by omega), if_neg (by omega), if_neg (by omega),
      if_neg (by omega), if_pos (by omega), hvalue]

/-- The second byte is limited so that the number is neither below 65536 nor too great. -/
theorem start_of_four (hlow : 0xFFFF < n) (hvalid : n.isValidChar) :
    ∃ low high, start (n / 262144 % 8 + 240) = .inr ⟨n / 262144, 3, low, high⟩ ∧
      low ≤ n / 4096 % 64 + 128 ∧ n / 4096 % 64 + 128 ≤ high := by
  rw [Nat.isValidChar] at hvalid
  by_cases hzero : n / 262144 = 0
  · exact ⟨0x90, 0xBF, by rw [hzero]; rfl, by omega, by omega⟩
  by_cases hlast : n / 262144 = 4
  · exact ⟨0x80, 0x8F, by rw [hlast]; rfl, by omega, by omega⟩
  · have hvalue : n / 262144 % 8 + 240 - 0xF0 = n / 262144 := by omega
    refine ⟨0x80, 0xBF, ?_, by omega, by omega⟩
    rw [start, if_neg (by omega), if_neg (by omega), if_neg (by omega), if_neg (by omega),
      if_neg (by omega), if_neg (by omega), if_neg (by omega), if_pos (by omega), hvalue]

/-! ## Characters and texts -/

theorem toNat_byte (h : n < 256) : (UInt8.ofNat n).toNat = n := by
  rw [UInt8.toNat_ofNat', Nat.mod_eq_of_lt h]

/-- The last byte of a character, and each between the first and it, carries six bits. -/
theorem toNat_laterByte (n : Nat) : (UInt8.ofNat (n % 64 + 128)).toNat = n % 64 + 128 :=
  toNat_byte (by omega)

theorem decodeFrom_two (hlow : 0x7F < n) (hhigh : n ≤ 0x7FF) (rest : List UInt8) :
    decodeFrom none (UInt8.ofNat (n / 64 % 32 + 192) :: UInt8.ofNat (n % 64 + 128) :: rest) =
      Char.ofNat n :: decodeFrom none rest := by
  have hstart := start_of_two hlow hhigh
  have hlast := toNat_laterByte n
  have hvalue : n / 64 * 64 + (n % 64 + 128) % 64 = n := by omega
  rw [decodeFrom_of_pending (by rwa [toNat_byte (by omega)]),
    decodeFrom_last (by omega) (by omega), hlast, hvalue]

theorem decodeFrom_three (hlow : 0x7FF < n) (hhigh : n ≤ 0xFFFF) (hvalid : n.isValidChar)
    (rest : List UInt8) :
    decodeFrom none (UInt8.ofNat (n / 4096 % 16 + 224) :: UInt8.ofNat (n / 64 % 64 + 128) ::
      UInt8.ofNat (n % 64 + 128) :: rest) = Char.ofNat n :: decodeFrom none rest := by
  obtain ⟨low, high, hstart, hleast, hmost⟩ := start_of_three hlow hhigh hvalid
  have hsecond := toNat_laterByte (n / 64)
  have hlast := toNat_laterByte n
  have hvalue : (n / 4096 * 64 + (n / 64 % 64 + 128) % 64) * 64 + (n % 64 + 128) % 64 = n := by
    omega
  rw [decodeFrom_of_pending (by rwa [toNat_byte (by omega)]),
    decodeFrom_continued (by rwa [hsecond]) (by rwa [hsecond]),
    decodeFrom_last (by omega) (by omega), hlast, hsecond, hvalue]

theorem decodeFrom_four (hlow : 0xFFFF < n) (hvalid : n.isValidChar) (rest : List UInt8) :
    decodeFrom none (UInt8.ofNat (n / 262144 % 8 + 240) :: UInt8.ofNat (n / 4096 % 64 + 128) ::
      UInt8.ofNat (n / 64 % 64 + 128) :: UInt8.ofNat (n % 64 + 128) :: rest) =
      Char.ofNat n :: decodeFrom none rest := by
  obtain ⟨low, high, hstart, hleast, hmost⟩ := start_of_four hlow hvalid
  have hsecond := toNat_laterByte (n / 4096)
  have hthird := toNat_laterByte (n / 64)
  have hlast := toNat_laterByte n
  have hvalue : ((n / 262144 * 64 + (n / 4096 % 64 + 128) % 64) * 64 +
      (n / 64 % 64 + 128) % 64) * 64 + (n % 64 + 128) % 64 = n := by
    rw [Nat.isValidChar] at hvalid
    omega
  rw [decodeFrom_of_pending (by rwa [toNat_byte (by omega)]),
    decodeFrom_continued (by rwa [hsecond]) (by rwa [hsecond]),
    decodeFrom_continued (by omega) (by omega),
    decodeFrom_last (by omega) (by omega), hlast, hthird, hsecond, hvalue]

theorem decodeFrom_utf8EncodeChar (c : Char) (rest : List UInt8) :
    decodeFrom none (String.utf8EncodeChar c ++ rest) = c :: decodeFrom none rest := by
  have hvalid : c.val.toNat.isValidChar := c.valid
  have hchar : Char.ofNat c.val.toNat = c := Char.ofNat_toNat c
  rw [String.utf8EncodeChar]
  generalize c.val.toNat = n at hvalid hchar
  subst hchar
  split_ifs with hone htwo hthree
  · refine decodeFrom_of_char ?_
    rw [toNat_byte (by omega), start, if_pos (by omega)]
  · exact decodeFrom_two (Nat.lt_of_not_le hone) htwo rest
  · exact decodeFrom_three (Nat.lt_of_not_le htwo) hthree hvalid rest
  · exact decodeFrom_four (Nat.lt_of_not_le hthree) hvalid rest

/-- What is a text is read as it is. -/
theorem decodeLossy_utf8 (text : String) : decodeLossy (utf8 text) = text := by
  have hchars : ∀ chars : List Char,
      decodeFrom none (chars.flatMap String.utf8EncodeChar) = chars := by
    intro chars
    induction chars with
    | nil => rfl
    | cons c chars ih => rw [List.flatMap_cons, decodeFrom_utf8EncodeChar, ih]
  rw [decodeLossy, utf8_eq_flatMap, hchars, String.ofList_toList]

end ModuleSearch.Text.Utf8
