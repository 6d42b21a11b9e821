import ModuleSearch.Proofs.Automatic.Sources
import ModuleSearch.Proofs.ByteOrder
import ModuleSearch.Proofs.Text.Lines

/-!
# Writing manifests

An attribute may be written over several lines, cut anywhere, and its lines may end in two ways. A
manifest that is written in any such way is read back, and what comes after the first empty line
does not matter: `parse_written`.
-/

namespace ModuleSearch.Manifest

inductive LineEnd where
  | feed
  | returnAndFeed
  deriving DecidableEq, Repr

def LineEnd.text : LineEnd → List Char
  | feed => ['\n']
  | returnAndFeed => ['\r', '\n']

/-- The part of a value that stands on one line. -/
structure Piece where
  text : List Char
  ending : LineEnd
  deriving DecidableEq, Repr

/-- An attribute as it is written: after the colon some spaces and the first piece of its value, and
each further piece on a line of its own after one space. -/
structure Writing where
  name : String
  spaces : Nat
  first : Piece
  further : List Piece
  deriving DecidableEq, Repr

namespace Writing

def value (w : Writing) : List Char := w.first.text ++ w.further.flatMap Piece.text

def toAttribute (w : Writing) : Attribute := ⟨w.name, String.ofList w.value⟩

def header (w : Writing) : List Char :=
  w.name.toList ++ ':' :: (List.replicate w.spaces ' ' ++ w.first.text)

def continuation (p : Piece) : List Char := ' ' :: (p.text ++ p.ending.text)

def text (w : Writing) : List Char :=
  w.header ++ w.first.ending.text ++ w.further.flatMap continuation

end Writing

/-- Neither the name nor the value can be taken for anything else. -/
structure Attribute.IsWritable (a : Attribute) : Prop where
  name_ne_empty : a.name ≠ ""
  name_start : ∀ c ∈ a.name.toList.head?, c ≠ ' '
  name_chars : ∀ c ∈ a.name.toList, c ≠ ':' ∧ c ≠ '\r' ∧ c ≠ '\n'
  value_start : ∀ c ∈ a.value.toList.head?, Text.isBlank c = false
  value_chars : ∀ c ∈ a.value.toList, c ≠ '\r' ∧ c ≠ '\n'

variable {a : Attribute} {w : Writing} {done : List Attribute} {line later : List Char}
  {number : Nat}

/-! ## One line -/

theorem lines_append_ending (h : ∀ c ∈ line, c ≠ '\r' ∧ c ≠ '\n') (ending : LineEnd)
    (rest : List Char) :
    Text.lines (line ++ (ending.text ++ rest)) = line :: Text.lines rest := by
  have hfeed : '\n' ∉ line := fun hmem => (h _ hmem).2 rfl
  cases ending with
  | feed => exact Text.lines_cons_feed hfeed (fun hmem => (h _ hmem).1 rfl) rest
  | returnAndFeed => exact Text.lines_cons_return hfeed rest

/-- A line that does not start with a space starts an attribute. -/
theorem addLine_header (hname : line ≠ []) (hstart : ∀ c ∈ line.head?, c ≠ ' ')
    (hcolon : ':' ∉ line) (value : List Char) :
    addLine done (line ++ ':' :: value) =
      .ok (⟨String.ofList line, String.ofList (Text.trimStart value)⟩ :: done) := by
  obtain ⟨c, rest, rfl⟩ := List.exists_cons_of_ne_nil hname
  have hc : c ≠ ' ' := hstart c rfl
  have hcut : Text.cut? ':' (c :: rest ++ ':' :: value) = some (c :: rest, value) :=
    Text.cut?_eq_some_iff.mpr ⟨hcolon, rfl⟩
  rw [addLine, hcut]
  · intro more hline _
    exact hc (List.cons.inj hline).1
  · intro more last before hline _
    exact hc (List.cons.inj hline).1

theorem Attribute.extend_extend (a : Attribute) (x y : List Char) :
    (a.extend x).extend y = a.extend (x ++ y) := by
  simp [Attribute.extend, String.append_assoc]

/-! ## Several lines -/

/-- Each continuation line makes the value longer. -/
theorem readLines_continuations {pieces : List Piece}
    (h : ∀ p ∈ pieces, ∀ c ∈ p.text, c ≠ '\r' ∧ c ≠ '\n') (later : List Char) :
    readLines number (a :: done) (Text.lines (pieces.flatMap Writing.continuation ++ later)) =
      readLines (number + pieces.length) (a.extend (pieces.flatMap Piece.text) :: done)
        (Text.lines later) := by
  induction pieces generalizing number a with
  | nil => simp [Attribute.extend]
  | cons p rest ih =>
      obtain ⟨hp, hrest⟩ := List.forall_mem_cons.mp h
      have hline : ∀ c ∈ ' ' :: p.text, c ≠ '\r' ∧ c ≠ '\n' :=
        List.forall_mem_cons.mpr ⟨by decide, hp⟩
      have htext : (p :: rest).flatMap Writing.continuation ++ later = (' ' :: p.text) ++
          (p.ending.text ++ (rest.flatMap Writing.continuation ++ later)) := by
        simp [Writing.continuation]
      rw [htext, lines_append_ending hline, readLines]
      · rw [addLine]
        dsimp only
        rw [ih hrest, Attribute.extend_extend, List.flatMap_cons, List.length_cons,
          Nat.add_right_comm, Nat.add_assoc]
      · simp

/-- The lines of an attribute add it. -/
theorem readLines_writing (h : w.toAttribute.IsWritable) (later : List Char) :
    readLines number done (Text.lines (w.text ++ later)) =
      readLines (number + 1 + w.further.length) (w.toAttribute :: done) (Text.lines later) := by
  have hname : w.name ≠ "" := h.name_ne_empty
  have hnameStart : ∀ c ∈ w.name.toList.head?, c ≠ ' ' := h.name_start
  have hchars : ∀ c ∈ w.name.toList, c ≠ ':' ∧ c ≠ '\r' ∧ c ≠ '\n' := h.name_chars
  have hstart : ∀ c ∈ w.value.head?, Text.isBlank c = false := by
    simpa [Writing.toAttribute] using h.value_start
  have hvalue : ∀ c ∈ w.value, c ≠ '\r' ∧ c ≠ '\n' := by
    simpa [Writing.toAttribute] using h.value_chars
  obtain ⟨hfirst, hfurther⟩ := List.forall_mem_append.mp hvalue
  have hpieces : ∀ p ∈ w.further, ∀ c ∈ p.text, c ≠ '\r' ∧ c ≠ '\n' :=
    fun p hp c hc => hfurther c (List.mem_flatMap_of_mem hp hc)
  have hheader : ∀ c ∈ w.header, c ≠ '\r' ∧ c ≠ '\n' := by
    simp only [Writing.header, List.forall_mem_append, List.forall_mem_cons]
    exact ⟨fun c hc => (hchars c hc).2, by decide,
      fun c hc => List.eq_of_mem_replicate hc ▸ by decide, hfirst⟩
  have htrim : Text.trimStart (List.replicate w.spaces ' ' ++ w.first.text) = w.first.text := by
    refine Text.trimStart_append (fun c hc => List.eq_of_mem_replicate hc ▸ by decide) ?_
    intro c hc
    refine hstart c ?_
    rw [Option.mem_def] at hc ⊢
    rw [Writing.value, List.head?_append, hc, Option.some_or]
  have hadd : addLine done w.header = .ok (⟨w.name, String.ofList w.first.text⟩ :: done) := by
    have hcolon : ':' ∉ w.name.toList := fun hmem => (hchars _ hmem).1 rfl
    rw [Writing.header, addLine_header (by simpa using hname) hnameStart hcolon, htrim,
      String.ofList_toList]
  have htext : w.text ++ later =
      w.header ++ (w.first.ending.text ++ (w.further.flatMap Writing.continuation ++ later)) := by
    simp [Writing.text]
  rw [htext, lines_append_ending hheader, readLines, hadd]
  · dsimp only
    rw [readLines_continuations hpieces]
    simp [Attribute.extend, Writing.toAttribute, Writing.value]
  · simp [Writing.header]

/-- What comes after the attributes is nothing, or an empty line and anything. -/
def IsLater (text : List Char) : Prop :=
  text = [] ∨ ∃ (ending : LineEnd) (rest : List Char), text = ending.text ++ rest

theorem readLines_writings {writings : List Writing}
    (h : ∀ w ∈ writings, w.toAttribute.IsWritable) (hlater : IsLater later) :
    readLines number done (Text.lines (writings.flatMap Writing.text ++ later)) =
      .ok (done.reverse ++ writings.map Writing.toAttribute) := by
  induction writings generalizing number done with
  | nil =>
      obtain rfl | ⟨ending, rest, rfl⟩ := hlater
      · simp [readLines, Text.lines, Text.lineList]
      · have hempty : Text.lines (ending.text ++ rest) = [] :: Text.lines rest :=
          lines_append_ending (List.forall_mem_nil _) ending rest
        rw [List.flatMap_nil, List.nil_append, hempty]
        simp [readLines]
  | cons w rest ih =>
      obtain ⟨hw, hrest⟩ := List.forall_mem_cons.mp h
      rw [List.flatMap_cons, List.append_assoc, readLines_writing hw, ih hrest]
      simp

/-- A manifest that is written in any way is read back: a name has the value of the first of its
attributes, and none if it has none; ASCII letters count without their case. -/
theorem parse_written {writings : List Writing} (h : ∀ w ∈ writings, w.toAttribute.IsWritable)
    (hlater : IsLater later) :
    ∃ m, parse (String.ofList (writings.flatMap Writing.text ++ later)).toUTF8 = .ok m ∧
      m.attributes = writings.map Writing.toAttribute ∧
      ∀ name, (∀ value, m.attribute? name = some value ↔ m.HasFirst name value) ∧
        (m.attribute? name = none ↔ ∀ a ∈ m.attributes, lowerCase a.name ≠ lowerCase name) := by
  refine ⟨⟨writings.map Writing.toAttribute⟩, ?_, rfl, fun name => ⟨fun value =>
    attribute?_eq_some_iff, ?_⟩⟩
  · rw [parse, fromUTF8?_eq_some_iff.mpr rfl]
    dsimp only
    rw [String.toList_ofList, readLines_writings h hlater]
    rfl
  · simp [attribute?, Option.map_eq_none_iff, List.find?_eq_none]

/-- A value that is cut before a space and a colon, with an empty piece, and a second attribute
whose name differs in case alone. -/
def sampleWritings : List Writing :=
  [⟨"Main-Class", 2, ⟨['p'], .returnAndFeed⟩, [⟨[], .feed⟩, ⟨[' ', ':', 'M'], .returnAndFeed⟩]⟩,
    ⟨"main-class", 0, ⟨[], .feed⟩, [⟨['N'], .feed⟩]⟩]

theorem parse_written_sample : (∀ w ∈ sampleWritings, w.toAttribute.IsWritable) ∧
    IsLater "\r\nMain".toList ∧
    ∃ m, parse "Main-Class:  p\r\n \n  :M\r\nmain-class:\n N\n\r\nMain".toUTF8 = .ok m ∧
      m.attribute? "MAIN-CLASS" = some "p :M" ∧ m.attribute? "Main" = none := by
  have hwritable : ∀ w ∈ sampleWritings, w.toAttribute.IsWritable := by
    have hsample : ∀ w ∈ sampleWritings, w.name ≠ "" ∧ w.name.toList.head? ≠ some ' ' ∧
        (w.name.toList.all fun c => c != ':' && c != '\r' && c != '\n') ∧
        (w.toAttribute.value.toList.head?.all fun c => !Text.isBlank c) ∧
        w.toAttribute.value.toList.all fun c => c != '\r' && c != '\n' := by
      decide +kernel
    intro w hw
    obtain ⟨hname, hstart, hchars, hvalueStart, hvalueChars⟩ := hsample w hw
    refine ⟨hname, fun c hc heq => hstart (heq ▸ hc), ?_, ?_, ?_⟩
    · simpa [Writing.toAttribute, and_assoc] using hchars
    · simpa [Option.all_eq_true] using hvalueStart
    · simpa using hvalueChars
  have hlater : IsLater "\r\nMain".toList := .inr ⟨.returnAndFeed, "Main".toList, by decide +kernel⟩
  have htext : sampleWritings.flatMap Writing.text ++ "\r\nMain".toList =
      "Main-Class:  p\r\n \n  :M\r\nmain-class:\n N\n\r\nMain".toList := by
    decide +kernel
  obtain ⟨⟨attributes⟩, hparse, rfl, -⟩ := parse_written hwritable hlater
  rw [htext, String.ofList_toList] at hparse
  exact ⟨hwritable, hlater, _, hparse, by decide +kernel, by decide +kernel⟩

end ModuleSearch.Manifest
