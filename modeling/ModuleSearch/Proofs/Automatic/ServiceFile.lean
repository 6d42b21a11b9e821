import Mathlib.Data.List.Forall2
import ModuleSearch.Proofs.ByteOrder
import ModuleSearch.Proofs.Descriptor.Declarations
import ModuleSearch.Proofs.Except
import ModuleSearch.Proofs.Text.Lines
import ModuleSearch.ServiceFile

/-!
# Reading service files

A line names a provider or nothing: `NamedOn`. A service file is read if all names on its lines are
legal, and the first one that is not is the error: `parse_eq_ok_iff`, `parse_eq_error_iff`. Putting
one file behind another puts their providers together: `parse_append_feed`. All of it is said by
`parse_lists`.
-/

namespace ModuleSearch.ServiceFile

variable {content more : ByteArray} {text : String} {line : List Char} {name : String}
  {lines pieces : List (List Char)} {found names providers : List String} {number : Nat}

/-- What a line names stands, with blanks around it, before the first `#`. The name is empty if
nothing stands there. -/
def NamedOn (line : List Char) (name : String) : Prop :=
  ∃ front back, '#' ∉ front ++ name.toList ++ back ∧
    (line = front ++ name.toList ++ back ∨
      ∃ comment, line = front ++ name.toList ++ back ++ '#' :: comment) ∧
    (∀ c ∈ front, Text.isBlank c = true) ∧ (∀ c ∈ back, Text.isBlank c = true) ∧
    Text.IsTrimmed name.toList

theorem namedOn_iff : NamedOn line name ↔ String.ofList (nameOnLine line) = name := by
  have htext : NamedOn line name ↔ nameOnLine line = name.toList := by
    rw [nameOnLine, Text.trim_eq_iff, NamedOn]
    constructor
    · rintro ⟨front, back, hhash, hline, hfront, hback, htrimmed⟩
      exact ⟨htrimmed, front, back, Text.cut_fst_eq_iff.mpr ⟨hhash, hline⟩, hfront, hback⟩
    · rintro ⟨htrimmed, front, back, hcut, hfront, hback⟩
      obtain ⟨hhash, hline⟩ := Text.cut_fst_eq_iff.mp hcut
      exact ⟨front, back, hhash, hline, hfront, hback, htrimmed⟩
  rw [htext, ← String.toList_inj, String.toList_ofList]

/-- A carriage return at the end is a blank or belongs to the comment. -/
theorem NamedOn.append_return (h : NamedOn line name) : NamedOn (line ++ ['\r']) name := by
  obtain ⟨front, back, hhash, rfl | ⟨comment, rfl⟩, hfront, hback, htrimmed⟩ := h
  · refine ⟨front, back ++ ['\r'], by simpa using hhash, .inl (by simp), hfront, ?_, htrimmed⟩
    exact List.forall_mem_append.mpr ⟨hback, List.forall_mem_singleton.mpr (by decide)⟩
  · exact ⟨front, back, hhash, .inr ⟨comment ++ ['\r'], by simp⟩, hfront, hback, htrimmed⟩

theorem nameOnLine_dropReturn (line : List Char) :
    String.ofList (nameOnLine (Text.dropReturn line)) = String.ofList (nameOnLine line) := by
  obtain hline | hline := Text.dropReturn_cases line
  · rw [← hline]
  · have hnamed := (namedOn_iff.mpr (Eq.refl (String.ofList
      (nameOnLine (Text.dropReturn line))))).append_return
    rw [← hline] at hnamed
    exact (namedOn_iff.mp hnamed).symm

/-! ## The names on some lines -/

/-- The names on some lines, without the empty ones. -/
def namesOn (lines : List (List Char)) : List String :=
  (lines.map fun line => String.ofList (nameOnLine line)).filter (· ≠ "")

theorem namesOn_cons (line : List Char) (rest : List (List Char)) :
    namesOn (line :: rest) = if String.ofList (nameOnLine line) = "" then namesOn rest
      else String.ofList (nameOnLine line) :: namesOn rest := by
  rw [namesOn, List.map_cons, List.filter_cons, namesOn]
  split <;> simp_all

theorem namesOn_append (a b : List (List Char)) : namesOn (a ++ b) = namesOn a ++ namesOn b := by
  rw [namesOn, List.map_append, List.filter_append, namesOn, namesOn]

theorem namesOn_map_dropReturn (pieces : List (List Char)) :
    namesOn (pieces.map Text.dropReturn) = namesOn pieces := by
  rw [namesOn, List.map_map, namesOn]
  congr 2
  exact funext nameOnLine_dropReturn

/-- How the lines end makes no difference to the names on them. -/
theorem namesOn_lineList (pieces : List (List Char)) :
    namesOn (Text.lineList pieces) = namesOn pieces := by
  fun_induction Text.lineList pieces with
  | case1 => rfl
  | case2 last hempty =>
      obtain rfl : last = [] := by simpa using hempty
      decide
  | case3 => rfl
  | case4 line rest _ ih => rw [namesOn_cons, ih, nameOnLine_dropReturn, ← namesOn_cons]

theorem namesOn_lines_append (x y : List Char) : namesOn (Text.lines (x ++ '\n' :: y)) =
    namesOn (Text.lines x) ++ namesOn (Text.lines y) := by
  rw [Text.lines_append_feed, namesOn_append, namesOn_map_dropReturn, Text.lines, Text.lines,
    namesOn_lineList, namesOn_lineList]

theorem readLines_eq_ok_iff : readLines number lines = .ok found ↔
    (∀ name ∈ namesOn lines, Name.isQualifiedName name = true) ∧ namesOn lines = found := by
  induction lines generalizing number found with
  | nil => simp [readLines, namesOn]
  | cons line rest ih =>
      rw [readLines, namesOn_cons]
      by_cases hempty : String.ofList (nameOnLine line) = ""
      · simp [hempty, ih]
      · by_cases hlegal : Name.isQualifiedName (String.ofList (nameOnLine line)) = true
        · simp [hempty, hlegal, map_eq_ok_iff, ih, and_assoc]
        · simp [hempty, hlegal]

/-! ## Illegal names -/

/-- A line names nothing or has a legal name. -/
def IsAllowed (name : String) : Prop := name = "" ∨ Name.isQualifiedName name = true

/-- The error is the first name that is not allowed; the names stand on the lines from this number
on. -/
def FirstIllegal (number : Nat) (names : List String) (e : ServiceFileError) : Prop :=
  ∃ before name after, names = before ++ name :: after ∧ (∀ other ∈ before, IsAllowed other) ∧
    ¬ IsAllowed name ∧ e = .illegalName (number + before.length) name

theorem firstIllegal_cons_of_illegal {e : ServiceFileError} (h : ¬ IsAllowed name) :
    FirstIllegal number (name :: names) e ↔ e = .illegalName number name := by
  constructor
  · rintro ⟨before, other, after, hnames, hbefore, -, rfl⟩
    cases before with
    | nil =>
        obtain ⟨rfl, rfl⟩ := List.cons.inj hnames
        rfl
    | cons first rest =>
        obtain ⟨rfl, rfl⟩ := List.cons.inj hnames
        exact absurd (hbefore _ (by simp)) h
  · rintro rfl
    exact ⟨[], name, names, rfl, by simp, h, rfl⟩

theorem firstIllegal_cons {e : ServiceFileError} (h : IsAllowed name) :
    FirstIllegal number (name :: names) e ↔ FirstIllegal (number + 1) names e := by
  constructor
  · rintro ⟨before, other, after, hnames, hbefore, hother, rfl⟩
    cases before with
    | nil =>
        obtain ⟨rfl, rfl⟩ := List.cons.inj hnames
        exact absurd h hother
    | cons first rest =>
        obtain ⟨rfl, rfl⟩ := List.cons.inj hnames
        refine ⟨rest, other, after, rfl, (List.forall_mem_cons.mp hbefore).2, hother, ?_⟩
        rw [List.length_cons, Nat.add_right_comm, Nat.add_assoc]
  · rintro ⟨before, other, after, rfl, hbefore, hother, rfl⟩
    refine ⟨name :: before, other, after, rfl, List.forall_mem_cons.mpr ⟨h, hbefore⟩, hother, ?_⟩
    rw [List.length_cons, Nat.add_right_comm, Nat.add_assoc]

theorem readLines_eq_error_iff {e : ServiceFileError} : readLines number lines = .error e ↔
    FirstIllegal number (lines.map fun line => String.ofList (nameOnLine line)) e := by
  induction lines generalizing number with
  | nil => simp [readLines, FirstIllegal]
  | cons line rest ih =>
      rw [readLines, List.map_cons]
      by_cases hempty : String.ofList (nameOnLine line) = ""
      · rw [firstIllegal_cons (.inl hempty), ← ih]
        simp [hempty]
      · cases hlegal : Name.isQualifiedName (String.ofList (nameOnLine line)) with
        | true =>
            rw [firstIllegal_cons (.inr hlegal), ← ih]
            simp [hempty, map_eq_error_iff]
        | false =>
            rw [firstIllegal_cons_of_illegal (by simp [IsAllowed, hempty, hlegal]),
              if_neg (by simpa using hempty), if_neg (by decide), Except.error.injEq, eq_comm]

/-! ## Files -/

theorem parse_eq_ok_iff : parse content = .ok providers ↔
    ∃ text, String.fromUTF8? content = some text ∧
      (∀ name ∈ namesOn (Text.lines text.toList), Name.isQualifiedName name = true) ∧
      (namesOn (Text.lines text.toList)).eraseDups = providers := by
  rw [parse]
  cases String.fromUTF8? content with
  | none => simp
  | some text =>
      simp [map_eq_ok_iff, readLines_eq_ok_iff, NameList.distinct_eq_eraseDups, and_assoc]

theorem parse_eq_notUtf8_iff :
    parse content = .error .notUtf8 ↔ String.fromUTF8? content = none := by
  rw [parse]
  cases String.fromUTF8? content with
  | none => simp
  | some text => simp [map_eq_error_iff, readLines_eq_error_iff, FirstIllegal]

theorem parse_eq_illegalName_iff : parse content = .error (.illegalName number name) ↔
    ∃ text, String.fromUTF8? content = some text ∧ FirstIllegal 1
      ((Text.lines text.toList).map fun line => String.ofList (nameOnLine line))
        (.illegalName number name) := by
  rw [parse]
  cases String.fromUTF8? content with
  | none => simp
  | some text => simp [map_eq_error_iff, readLines_eq_error_iff]

/-- Of a file behind another one count the providers that are new. -/
theorem parse_append_feed : parse (content ++ "\n".toUTF8 ++ more) = .ok providers ↔
    ∃ before after, parse content = .ok before ∧ parse more = .ok after ∧
      before ++ after.filter (fun name => name ∉ before) = providers := by
  have hnew : ∀ a b : List String,
      (a ++ b).eraseDups = a.eraseDups ++ b.eraseDups.filter fun name => name ∉ a.eraseDups := by
    intro a b
    rw [List.eraseDups_append, List.removeAll, NameList.eraseDups_filter]
    simp
  have hlines : ∀ front back : String, namesOn (Text.lines (front ++ "\n" ++ back).toList) =
      namesOn (Text.lines front.toList) ++ namesOn (Text.lines back.toList) := by
    intro front back
    rw [← namesOn_lines_append, String.toList_append, String.toList_append, List.append_assoc]
    rfl
  simp only [parse_eq_ok_iff, fromUTF8?_append_feed]
  constructor
  · rintro ⟨_, ⟨front, back, hfront, hback, rfl⟩, hlegal, rfl⟩
    rw [hlines] at hlegal ⊢
    obtain ⟨hlegal, hlegal'⟩ := List.forall_mem_append.mp hlegal
    exact ⟨_, _, ⟨front, hfront, hlegal, rfl⟩, ⟨back, hback, hlegal', rfl⟩, (hnew _ _).symm⟩
  · rintro ⟨_, _, ⟨front, hfront, hlegal, rfl⟩, ⟨back, hback, hlegal', rfl⟩, rfl⟩
    refine ⟨_, ⟨front, back, hfront, hback, rfl⟩, ?_, ?_⟩
    · rw [hlines]
      exact List.forall_mem_append.mpr ⟨hlegal, hlegal'⟩
    · rw [hlines, hnew]

/-- The names on the lines of a text, one for each line. -/
def NamedIn (text : String) (names : List String) : Prop :=
  List.Forall₂ NamedOn (Text.lines text.toList) names

theorem namedIn_iff : NamedIn text names ↔
    (Text.lines text.toList).map (fun line => String.ofList (nameOnLine line)) = names := by
  rw [NamedIn, ← List.forall₂_eq_eq_eq, List.forall₂_map_left_iff]
  exact ⟨.imp fun _ _ => namedOn_iff.mp, .imp fun _ _ => namedOn_iff.mpr⟩

/-- A service file is read exactly when it is a text and its lines name nothing but legal names;
then it lists these, each once, in the order of the lines. Else the first other name is the error,
with the number of its line. A file behind another adds those of its providers that are new. -/
theorem parse_lists (content : ByteArray) :
    (∀ providers, parse content = .ok providers ↔ ∃ text names, text.toUTF8 = content ∧
      NamedIn text names ∧ (∀ name ∈ names, IsAllowed name) ∧
      (names.filter (· ≠ "")).eraseDups = providers) ∧
    (parse content = .error .notUtf8 ↔ ∀ text : String, text.toUTF8 ≠ content) ∧
    (∀ number name, parse content = .error (.illegalName number name) ↔
      ∃ text before after, text.toUTF8 = content ∧ NamedIn text (before ++ name :: after) ∧
        (∀ other ∈ before, IsAllowed other) ∧ ¬ IsAllowed name ∧ number = before.length + 1) ∧
    ∀ more providers, parse (content ++ "\n".toUTF8 ++ more) = .ok providers ↔
      ∃ before after, parse content = .ok before ∧ parse more = .ok after ∧
        before ++ after.filter (fun name => name ∉ before) = providers := by
  refine ⟨fun providers => ?_, ?_, fun number name => ?_, fun more providers => parse_append_feed⟩
  · simp only [parse_eq_ok_iff, fromUTF8?_eq_some_iff, namedIn_iff]
    constructor
    · rintro ⟨text, hcontent, hlegal, rfl⟩
      refine ⟨text, _, hcontent, rfl, fun name hname => ?_, rfl⟩
      refine or_iff_not_imp_left.mpr fun hne => hlegal name ?_
      exact List.mem_filter.mpr ⟨hname, by simpa using hne⟩
    · rintro ⟨text, _, hcontent, rfl, hallowed, rfl⟩
      refine ⟨text, hcontent, fun name hname => ?_, rfl⟩
      obtain ⟨hmem, hne⟩ := List.mem_filter.mp hname
      exact (hallowed name hmem).resolve_left (by simpa using hne)
  · rw [parse_eq_notUtf8_iff, Option.eq_none_iff_forall_ne_some]
    simp only [ne_eq, fromUTF8?_eq_some_iff]
  · simp only [parse_eq_illegalName_iff, fromUTF8?_eq_some_iff, namedIn_iff]
    constructor
    · rintro ⟨text, hcontent, before, other, after, hnames, hbefore, hother, heq⟩
      obtain ⟨rfl, rfl⟩ := ServiceFileError.illegalName.inj heq
      exact ⟨text, before, after, hcontent, hnames, hbefore, hother, Nat.add_comm 1 _⟩
    · rintro ⟨text, before, after, hcontent, hnames, hbefore, hname, rfl⟩
      refine ⟨text, hcontent, before, name, after, hnames, hbefore, hname, ?_⟩
      rw [Nat.add_comm]

/-- A repeat behind a comment, an indented name and a line that ends with a carriage return. -/
example : parse "p.B # first\n\n  p.A\r\np.B".toUTF8 = .ok ["p.B", "p.A"] := by
  decide +kernel

end ModuleSearch.ServiceFile
