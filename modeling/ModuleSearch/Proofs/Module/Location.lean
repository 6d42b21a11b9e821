import ModuleSearch.Module.Location
import ModuleSearch.Proofs.Module.ImageFiles
import ModuleSearch.Proofs.Url.Escape

/-!
# Locations tell places apart

Files and directories with different absolute paths have different URLs, no file has that of a
directory, and none of them that of a module in an image: `samePlace_of_location?_eq`.
-/

open ModuleSearch.Path (IsName)

namespace ModuleSearch

theorem Path.text_ne_empty_of_isAbsolute {p : Path} (hp : p.isAbsolute = true) : p.text ≠ "" := by
  obtain ⟨rest, hrest⟩ := isAbsolute_iff.mp hp
  intro hempty
  simp [hempty] at hrest

namespace Location

variable {workingDirectory p q : Path} {segment : List Char} {segments segments' : List (List Char)}

/-! ## Files and directories -/

theorem splitOn_append_encodePath (hsegment : '/' ∉ segment) (segments : List (List Char)) :
    (segment ++ encodePath segments).splitOn '/' =
      segment :: segments.map (Url.escape .fileName) := by
  induction segments generalizing segment with
  | nil =>
      rw [encodePath, List.flatMap_nil, List.append_nil, List.splitOn_eq_singleton hsegment]
      rfl
  | cons next rest ih =>
      have hencode : encodePath (next :: rest) =
          '/' :: (Url.escape .fileName next ++ encodePath rest) := rfl
      rw [hencode, List.splitOn_append_cons_self, List.splitOn_eq_singleton hsegment,
        ih (Url.slash_not_mem_escape next)]
      rfl

theorem splitOn_encodePath (segments : List (List Char)) :
    (encodePath segments).splitOn '/' = [] :: segments.map (Url.escape .fileName) :=
  splitOn_append_encodePath (show '/' ∉ [] by simp) segments

theorem encodePath_injective : Function.Injective encodePath := by
  intro segments segments' h
  have hsplit := congrArg (List.splitOn '/') h
  rw [splitOn_encodePath, splitOn_encodePath] at hsplit
  exact Url.escape_injective.list_map (List.cons.inj hsplit).2

theorem encodePath_ne_append_slash (h : [] ∉ segments) :
    encodePath segments ≠ encodePath segments' ++ ['/'] := by
  intro heq
  have hsplit := congrArg (List.splitOn '/') heq
  rw [splitOn_encodePath, List.splitOn_append_cons_self, splitOn_encodePath,
    List.splitOn_nil] at hsplit
  have hnil : [] ∈ segments.map (Url.escape .fileName) := by
    have htail : segments.map (Url.escape .fileName) =
        segments'.map (Url.escape .fileName) ++ [[]] := (List.cons.inj hsplit).2
    rw [htail]
    simp
  obtain ⟨segment, hsegment, hescape⟩ := List.mem_map.mp hnil
  by_cases hempty : segment = []
  · exact h (hempty ▸ hsegment)
  · exact Url.escape_ne_nil hempty hescape

theorem ofFile?_eq (hp : p.isAbsolute = true) (hname : p.EndsWithName) :
    ofFile? workingDirectory p = some ("file://" ++ String.ofList (encodePath p.segments)) := by
  have htext : p.text.isEmpty = false :=
    String.isEmpty_eq_false_iff.mpr (Path.text_ne_empty_of_isAbsolute hp)
  obtain ⟨front, name, hparts, hname⟩ := hname
  have hsegments : p.segments = front.filter Path.isSegment ++ [name] := by
    rw [Path.segments, hparts, List.filter_append, List.filter_singleton, hname.1]
    rfl
  have hencode : encodePath p.segments ≠ [] := by
    rw [hsegments, encodePath, List.flatMap_append]
    simp [encodeSegment]
  rw [ofFile?, htext, segmentsFrom, if_pos hp]
  cases h : encodePath p.segments with
  | nil => exact absurd h hencode
  | cons c rest => rfl

theorem ofDirectory?_eq (hp : p.isAbsolute = true) :
    ofDirectory? workingDirectory p =
      some ("file://" ++ String.ofList (encodePath p.segments ++ ['/'])) := by
  have htext : p.text.isEmpty = false :=
    String.isEmpty_eq_false_iff.mpr (Path.text_ne_empty_of_isAbsolute hp)
  rw [ofDirectory?, htext, segmentsFrom, if_pos hp, String.ofList_append, ← String.append_assoc]
  rfl

/-! ## Modules in images -/

/-- A character of a module name or a dot between its parts. -/
def IsModuleChar (c : Char) : Prop := Name.isNameChar c = true ∨ c = '.'

theorem isModuleChar_of_mem {name : String} (h : Name.isModuleName name = true) :
    ∀ c ∈ name.toList, IsModuleChar c := by
  have hparts : ∀ part ∈ name.toList.splitOn '.', ∀ c ∈ part, Name.isNameChar c = true := by
    intro part hpart c hc
    have hlegal := List.all_eq_true.mp h part hpart
    rw [Name.isModulePart, Bool.and_eq_true] at hlegal
    exact List.all_eq_true.mp hlegal.2 c hc
  intro c hc
  have hjoin : ['.'].intercalate (name.toList.splitOn '.') = name.toList :=
    List.intercalate_splitOn '.'
  rcases Text.eq_or_mem_of_mem_intercalate (hjoin.symm ▸ hc) with rfl | ⟨part, hpart, hmem⟩
  · exact .inr rfl
  · exact .inl (hparts part hpart c hmem)

theorem bounds_of_isModuleChar {c : Char} (h : IsModuleChar c) :
    32 < c.toNat ∧ c.toNat < 127 := by
  have hval : c.val.toNat = c.toNat := rfl
  rcases h with h | rfl
  · simp only [Name.isNameChar, Char.isAlphanum, Char.isAlpha, Char.isUpper, Char.isLower,
      Char.isDigit, Bool.or_eq_true, Bool.and_eq_true, decide_eq_true_eq, beq_iff_eq, ge_iff_le,
      UInt32.le_iff_toNat_le, hval] at h
    rcases h with (((h | h) | h) | rfl) | rfl
    · exact ⟨Nat.lt_of_lt_of_le (by decide) h.1, Nat.lt_of_le_of_lt h.2 (by decide)⟩
    · exact ⟨Nat.lt_of_lt_of_le (by decide) h.1, Nat.lt_of_le_of_lt h.2 (by decide)⟩
    · exact ⟨Nat.lt_of_lt_of_le (by decide) h.1, Nat.lt_of_le_of_lt h.2 (by decide)⟩
    · decide
    · decide
  · decide

instance (c : Char) : Decidable (IsModuleChar c) := inferInstanceAs (Decidable (_ ∨ _))

/-- No module name holds a sign that means something in a URL. -/
theorem not_isModuleChar_of_mem_signs :
    ∀ sign ∈ '/' :: '%' :: Url.Part.path.signs, ¬ IsModuleChar sign := by
  have hall : ('/' :: '%' :: Url.Part.path.signs).all
      (fun sign => decide (¬ IsModuleChar sign)) = true := by
    decide
  exact fun sign hsign => of_decide_eq_true (List.all_eq_true.mp hall sign hsign)

theorem not_mem_moduleName {name : String} (h : Name.isModuleName name = true) {sign : Char}
    (hsign : sign ∈ '/' :: '%' :: Url.Part.path.signs) : sign ∉ name.toList :=
  fun hmem => not_isModuleChar_of_mem_signs sign hsign (isModuleChar_of_mem h sign hmem)

theorem isPlain_of_isModuleChar {c : Char} (h : IsModuleChar c) : Url.IsPlain .path c := by
  obtain ⟨hlow, hhigh⟩ := bounds_of_isModuleChar h
  refine ⟨Nat.le_of_lt hlow, hhigh, fun hsign => ?_⟩
  exact not_isModuleChar_of_mem_signs c (List.mem_cons_of_mem _ (List.mem_cons_of_mem _ hsign)) h

theorem trim_of_isModuleChar {text : List Char} (h : ∀ c ∈ text, IsModuleChar c) :
    Url.trim text = text := by
  have hend : text.reverse.dropWhile Url.isTrimmed = text.reverse := by
    cases hreverse : text.reverse with
    | nil => rfl
    | cons c rest =>
        have hc : c ∈ text := List.mem_reverse.mp (hreverse ▸ List.mem_cons_self)
        have hlow := (bounds_of_isModuleChar (h c hc)).1
        exact List.dropWhile_cons_of_neg (by simp [Url.isTrimmed]; omega)
  rw [Url.trim, hend, List.reverse_reverse, List.filter_eq_self]
  intro c hc
  have hlow := (bounds_of_isModuleChar (h c hc)).1
  simp only [Url.isIgnored, Bool.not_eq_true', Bool.or_eq_false_iff, beq_eq_false_iff_ne]
  refine ⟨⟨?_, ?_⟩, ?_⟩ <;> rintro rfl <;> exact absurd hlow (by decide)

theorem dots?_of_ne {c : Char} (hdot : c ≠ '.') (hpercent : c ≠ '%') (rest : List Char) :
    Url.dots? (c :: rest) = none := by
  simp [Url.dots?, hdot, hpercent]

/-- Nothing in a module name means something in the path of a URL. -/
theorem segmentsOf_moduleName {name : String} (h : Name.isModuleName name = true) :
    Url.segmentsOf ('/' :: name.toList) = [name.toList] := by
  have hescape : Url.escape .path name.toList = name.toList :=
    Url.escape_of_plain fun c hc => isPlain_of_isModuleChar (isModuleChar_of_mem h c hc)
  obtain ⟨c, rest, hname⟩ : ∃ c rest, name.toList = c :: rest := by
    refine List.exists_cons_of_ne_nil fun hnil => ?_
    simp [Name.isModuleName, Name.parts, hnil, Name.isModulePart] at h
  have hdots : Url.dots? name.toList = none := by
    rw [hname]
    refine dots?_of_ne (fun hdot => Name.head?_ne_dot h ?_) (fun hpercent => ?_) rest
    · rw [hname, hdot]
      rfl
    · have hnot : '%' ∉ name.toList := not_mem_moduleName h (by simp)
      exact hnot (by simp [hname, hpercent])
  rw [Url.segmentsOf, List.splitOn_eq_singleton (not_mem_moduleName h (by simp)), List.map_singleton,
    hescape, Url.normal, Url.normalFrom, hdots]
  rfl

theorem ofImageModule?_eq {name : String} (h : Name.isModuleName name = true) :
    ofImageModule? name = some ("jrt:/" ++ name) := by
  have hslash : '/' ∉ name.toList := not_mem_moduleName h (by decide)
  have hnumber : '#' ∉ '/' :: name.toList :=
    List.not_mem_cons_of_ne_of_not_mem (by decide) (not_mem_moduleName h (by decide))
  have hquestion : '?' ∉ '/' :: name.toList :=
    List.not_mem_cons_of_ne_of_not_mem (by decide) (not_mem_moduleName h (by decide))
  have hread : Url.ofRooted? "jrt" name = some (Url.ofPath "jrt" none ('/' :: name.toList)) := by
    rw [Url.ofRooted?, trim_of_isModuleChar (isModuleChar_of_mem h)]
    split
    · rename_i hrooted
      exact absurd (by simp [hrooted]) hslash
    · rfl
  have hpath : Url.ofPath "jrt" none ('/' :: name.toList) =
      ⟨"jrt", none, [name.toList], none, none⟩ := by
    simp only [Url.ofPath, Text.cut_of_not_mem hnumber, Text.cut_of_not_mem hquestion,
      segmentsOf_moduleName h, Option.map_none]
  have htext : Url.text ⟨"jrt", none, [name.toList], none, none⟩ = "jrt:/" ++ name := by
    rw [← String.toList_inj]
    simp [Url.text, Url.front, Url.signed]
  rw [ofImageModule?, hread, hpath, Option.map_some, htext]

end Location

namespace Source

open Location (encodePath)

/-- The paths are absolute, that of a file ends with a name, and a name in an image is legal. -/
def IsLocated : Source → Prop
  | packaged path _ => path.isAbsolute = true ∧ path.EndsWithName
  | exploded directory => directory.isAbsolute = true
  | image _ module => Name.isModuleName module = true

/-- One file, one directory, or one name in images. -/
inductive SamePlace : Source → Source → Prop
  | packaged {p q : Path} (f g : ArchiveFormat) (h : p.same q = true) :
      SamePlace (packaged p f) (packaged q g)
  | exploded {p q : Path} (h : p.same q = true) : SamePlace (exploded p) (exploded q)
  | image (p q : Path) (module : String) : SamePlace (image p module) (image q module)

variable {source other : Source} {workingDirectory : Path}

/-- The URL of a place that is told apart from all others. -/
def url : Source → String
  | packaged path _ => "file://" ++ String.ofList (encodePath path.segments)
  | exploded directory => "file://" ++ String.ofList (encodePath directory.segments ++ ['/'])
  | image _ module => "jrt:/" ++ module

theorem location?_eq (h : source.IsLocated) (workingDirectory : Path) :
    source.location? workingDirectory = some source.url := by
  cases source with
  | packaged path format => exact Location.ofFile?_eq h.1 h.2
  | exploded directory => exact Location.ofDirectory?_eq h
  | image path module => exact Location.ofImageModule?_eq h

theorem same_of_segments_eq {p q : Path} (hp : p.isAbsolute = true) (hq : q.isAbsolute = true)
    (h : p.segments = q.segments) : p.same q = true := by
  refine Path.same_iff.mpr ⟨?_, h⟩
  rw [Path.start, Path.start, if_pos hp, if_pos hq]

theorem nil_not_mem_segments (p : Path) : [] ∉ p.segments := by
  intro hnil
  exact absurd (List.mem_filter.mp hnil).2 (by decide)

theorem file_ne_jrt (x y : String) : "file://" ++ x ≠ "jrt:/" ++ y := by
  intro h
  have hhead := congrArg (fun text => text.toList.head?) h
  simp at hhead

/-- Different places have different URLs. -/
theorem samePlace_of_location?_eq (h : source.IsLocated) (h' : other.IsLocated)
    (heq : source.location? workingDirectory = other.location? workingDirectory) :
    source.SamePlace other := by
  rw [location?_eq h, location?_eq h', Option.some.injEq] at heq
  cases source with
  | packaged path format =>
      cases other with
      | packaged path' format' =>
          have hencode := String.ofList_inj.mp ((String.append_right_inj _).mp heq)
          have hsegments := Location.encodePath_injective hencode
          exact .packaged _ _ (same_of_segments_eq h.1 h'.1 hsegments)
      | exploded directory =>
          have hencode := String.ofList_inj.mp ((String.append_right_inj _).mp heq)
          exact absurd hencode (Location.encodePath_ne_append_slash (nil_not_mem_segments path))
      | image path' module => exact absurd heq (file_ne_jrt _ _)
  | exploded directory =>
      cases other with
      | packaged path format =>
          have hencode := String.ofList_inj.mp ((String.append_right_inj _).mp heq.symm)
          exact absurd hencode (Location.encodePath_ne_append_slash (nil_not_mem_segments path))
      | exploded directory' =>
          have hencode := String.ofList_inj.mp ((String.append_right_inj _).mp heq)
          have hsegments := Location.encodePath_injective (List.append_cancel_right hencode)
          exact .exploded (same_of_segments_eq h h' hsegments)
      | image path module => exact absurd heq (file_ne_jrt _ _)
  | image path module =>
      cases other with
      | packaged path' format => exact absurd heq.symm (file_ne_jrt _ _)
      | exploded directory => exact absurd heq.symm (file_ne_jrt _ _)
      | image path' module' =>
          obtain rfl : module = module' := (String.append_right_inj _).mp heq
          exact .image path path' module

end Source

end ModuleSearch
