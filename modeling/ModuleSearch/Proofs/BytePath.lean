import ModuleSearch.BytePath
import ModuleSearch.Proofs.ByteOrder
import ModuleSearch.Proofs.Path

/-!
# The bytes of paths

A path that is a text is divided alike by its characters and by its bytes: `fileName?_ofPath` and
`child_ofPath`.
-/

namespace ModuleSearch

namespace BytePath

/-- The bytes of a part of a path. -/
def encode (part : List Char) : List UInt8 := part.flatMap String.utf8EncodeChar

theorem bytes_ofPath (p : Path) : (ofPath p).bytes = encode p.text.toList :=
  utf8_eq_flatMap p.text

theorem encode_injective : Function.Injective encode := by
  intro part part' h
  have hutf8 : utf8 (String.ofList part) = utf8 (String.ofList part') := by
    rwa [utf8_eq_flatMap, utf8_eq_flatMap, String.toList_ofList, String.toList_ofList]
  exact String.ofList_inj.mp (utf8_injective hutf8)

theorem isEmpty_encode (part : List Char) : (encode part).isEmpty = part.isEmpty := by
  cases part with
  | nil => rfl
  | cons c rest => simp [encode]

theorem slash_not_mem_utf8EncodeChar {c : Char} (h : c ≠ '/') :
    slash ∉ String.utf8EncodeChar c := by
  intro hmem
  obtain ⟨front, tail, hcut⟩ := List.append_of_mem hmem
  obtain rfl := eq_nil_of_utf8EncodeChar_eq hcut (by decide)
  have hslash : [c].flatMap String.utf8EncodeChar = String.utf8EncodeChar '/' ++ tail := by
    rw [List.flatMap_singleton, hcut]
    rfl
  obtain ⟨rest, hrest, -⟩ := eq_cons_of_flatMap_utf8EncodeChar_eq (by decide) hslash
  exact h (List.cons.inj hrest).1

theorem splitOn_append_of_not_mem {bytes rest : List UInt8} (h : slash ∉ bytes) :
    (bytes ++ rest).splitOn slash = (rest.splitOn slash).modifyHead (bytes ++ ·) := by
  induction bytes with
  | nil => cases hsplit : rest.splitOn slash <;> simp [hsplit]
  | cons b bytes ih =>
      obtain ⟨hb, hbytes⟩ := not_or.mp (List.mem_cons.not.mp h)
      rw [List.cons_append, List.splitOn_cons_eq_if_modifyHead, ih hbytes,
        if_neg (by simpa using Ne.symm hb)]
      cases rest.splitOn slash <;> rfl

/-- The slashes of a text are those among its bytes. -/
theorem splitOn_encode (part : List Char) :
    (encode part).splitOn slash = (part.splitOn '/').map encode := by
  induction part with
  | nil => rfl
  | cons c rest ih =>
      rw [List.splitOn_cons_eq_if_modifyHead, encode, List.flatMap_cons]
      by_cases hc : c = '/'
      · subst hc
        have hbyte : String.utf8EncodeChar '/' = [slash] := rfl
        rw [hbyte, List.singleton_append, List.splitOn_cons_eq_if_modifyHead]
        exact congrArg ([] :: ·) ih
      · rw [splitOn_append_of_not_mem (slash_not_mem_utf8EncodeChar hc), if_neg (by simpa using hc)]
        have ih : (rest.flatMap String.utf8EncodeChar).splitOn slash = _ := ih
        rw [ih]
        cases rest.splitOn '/' <;> simp [encode]

theorem segments_ofPath (p : Path) : (ofPath p).segments = p.segments.map encode := by
  have hdot : [dot] = encode ['.'] := rfl
  rw [segments, bytes_ofPath, splitOn_encode, List.filter_map, Path.segments, Path.parts]
  congr 1
  refine List.filter_congr fun part _ => ?_
  rw [Function.comp_apply, isEmpty_encode, Path.isSegment, hdot]
  simp [bne, encode_injective.beq_eq]

theorem fileName?_ofPath (p : Path) : (ofPath p).fileName? = p.fileName?.map utf8 := by
  have hdots : [dot, dot] = encode ['.', '.'] := rfl
  rw [fileName?, segments_ofPath, List.getLast?_map, Path.fileName?_eq_bind]
  cases p.segments.getLast? with
  | none => rfl
  | some segment =>
      simp only [Option.map_some, Option.bind_some, hdots, encode_injective.eq_iff]
      split <;> simp [utf8_eq_flatMap, encode]

theorem encode_append (part part' : List Char) :
    encode (part ++ part') = encode part ++ encode part' := List.flatMap_append

theorem eq_slash_of_mem {c : Char} (h : slash ∈ String.utf8EncodeChar c) : c = '/' :=
  Classical.not_not.mp fun hc => slash_not_mem_utf8EncodeChar hc h

theorem head?_encode (part : List Char) :
    (encode part).head? = some slash ↔ part.head? = some '/' := by
  cases part with
  | nil => simp [encode]
  | cons c rest =>
      rw [encode, List.flatMap_cons, List.head?_append, List.head?_cons, Option.some.injEq]
      constructor
      · intro h
        refine eq_slash_of_mem (List.mem_of_head? ?_)
        simpa using h
      · rintro rfl
        rfl

theorem getLast?_encode (part : List Char) :
    (encode part).getLast? = some slash ↔ part.getLast? = some '/' := by
  rcases part.eq_nil_or_concat' with rfl | ⟨front, c, rfl⟩
  · simp [encode]
  · have hlast : (encode (front ++ [c])).getLast? = (String.utf8EncodeChar c).getLast? := by
      rw [encode_append, List.getLast?_append_of_ne_nil] <;> simp [encode]
    rw [hlast, List.getLast?_concat, Option.some.injEq]
    constructor
    · exact fun h => eq_slash_of_mem (List.mem_of_getLast? h)
    · rintro rfl
      rfl

/-- What lies below a text lies below its bytes. -/
theorem child_ofPath (p : Path) (name : String) :
    (ofPath p).child (utf8 name) = ofPath (p.child name) := by
  have hempty : (ofPath p).bytes.isEmpty = p.text.isEmpty := by
    rw [bytes_ofPath, isEmpty_encode, Bool.eq_iff_iff, List.isEmpty_iff, String.isEmpty_iff,
      String.toList_eq_nil_iff]
  have hname : ((utf8 name).head? == some slash) = (Path.mk name).isAbsolute := by
    rw [utf8_eq_flatMap, Path.isAbsolute, Bool.eq_iff_iff, beq_iff_eq, beq_iff_eq]
    exact head?_encode name.toList
  have hlast : ((ofPath p).bytes.getLast? == some slash) =
      (p.text.toList.getLast? == some '/') := by
    rw [bytes_ofPath, Bool.eq_iff_iff, beq_iff_eq, beq_iff_eq]
    exact getLast?_encode p.text.toList
  have happend : ∀ text : String, ofPath ⟨p.text ++ text⟩ = ⟨(ofPath p).bytes ++ utf8 text⟩ :=
    fun text => congrArg BytePath.mk (utf8_append p.text text)
  rw [child, hname, hempty, hlast, Path.child, Path.join]
  split_ifs
  · rfl
  · exact (happend name).symm
  · have hslash : utf8 "/" = [slash] := utf8_eq_flatMap "/"
    rw [String.append_assoc, happend, utf8_append, hslash, List.singleton_append]

end BytePath

end ModuleSearch
