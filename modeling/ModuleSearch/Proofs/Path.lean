import Mathlib.Data.List.Basic
import ModuleSearch.Path
import ModuleSearch.Text.Cut

/-!
# The parts of a path

A name is a part of a path that names something below a directory. `descend` goes down from a path
by names; `descend_eq_child` says that this is the same as going down by the joined name at once.
-/

namespace ModuleSearch.Path

/-- A part that leads down: it is neither empty nor made of one or two dots alone. -/
def IsName (part : List Char) : Prop := isSegment part = true ∧ part ≠ ['.', '.'] ∧ '/' ∉ part

instance (part : List Char) : Decidable (IsName part) :=
  inferInstanceAs (Decidable (_ ∧ _ ∧ _))

/-- The relative path of these parts. -/
def joined (parts : List (List Char)) : String := String.ofList (['/'].intercalate parts)

/-- The path of what lies below a path at these names. -/
def descend (p : Path) (names : List (List Char)) : Path :=
  names.foldl (fun p name => p.child (String.ofList name)) p

/-- Whether the last part of a path is a name, so that no slash or dot comes after it. -/
def EndsWithName (p : Path) : Prop := ∃ front name, p.parts = front ++ [name] ∧ IsName name

variable {p : Path} {name part : List Char} {names parts : List (List Char)} {text : String}

@[simp] theorem descend_nil (p : Path) : p.descend [] = p := rfl

@[simp] theorem descend_cons (p : Path) (name : List Char) (names : List (List Char)) :
    p.descend (name :: names) = (p.child (String.ofList name)).descend names := rfl

theorem IsName.ne_nil (h : IsName name) : name ≠ [] := by
  rintro rfl
  exact absurd h.1 (by decide)

theorem parts_ne_nil (p : Path) : p.parts ≠ [] := List.splitOn_ne_nil '/' _

theorem joined_parts (text : String) : joined (Path.mk text).parts = text := by
  rw [joined, parts, List.intercalate_splitOn, String.ofList_toList]

theorem parts_joined (h : ∀ name ∈ names, IsName name) (hne : names ≠ []) :
    (Path.mk (joined names)).parts = names := by
  rw [Path.parts, joined, String.toList_ofList]
  exact List.splitOn_intercalate '/' (fun name hname => (h name hname).2.2) hne

theorem joined_injective {names' : List (List Char)} (h : ∀ name ∈ names, IsName name)
    (hne : names ≠ []) (h' : ∀ name ∈ names', IsName name) (hne' : names' ≠ [])
    (heq : joined names = joined names') : names = names' := by
  rw [← parts_joined h hne, heq, parts_joined h' hne']

theorem joined_singleton (part : List Char) : joined [part] = String.ofList part := by
  rw [joined, List.intercalate_singleton]

theorem joined_cons (part : List Char) (hne : parts ≠ []) :
    joined (part :: parts) = String.ofList part ++ "/" ++ joined parts := by
  obtain ⟨next, rest, rfl⟩ := List.exists_cons_of_ne_nil hne
  rw [← String.toList_inj]
  simp [joined, List.intercalate_cons_cons]

/-! ## Places -/

theorem ofSegment_injective : Function.Injective Component.ofSegment := by
  intro a b h
  rw [Component.ofSegment, Component.ofSegment] at h
  split at h <;> split at h
  · rename_i ha hb
    rw [ha, hb]
  · cases h
  · cases h
  · exact Component.name.inj h

/-- Whether a component says where a path starts. -/
def Component.isStart : Component → Bool
  | .root | .current => true
  | .parent | .name _ => false

theorem isStart_of_mem_start {c : Component} (h : c ∈ p.start) : c.isStart = true := by
  rw [start] at h
  split at h
  · rw [List.mem_singleton.mp h]
    rfl
  · split at h
    · rw [List.mem_singleton.mp h]
      rfl
    · simp at h

theorem isStart_ofSegment (segment : List Char) :
    (Component.ofSegment segment).isStart = false := by
  rw [Component.ofSegment]
  split <;> rfl

theorem isAbsolute_of_start {q : Path} (h : p.start = q.start) : p.isAbsolute = q.isAbsolute := by
  rw [start, start] at h
  cases hp : p.isAbsolute <;> cases hq : q.isAbsolute
  · rfl
  · simp only [hp, hq, Bool.false_eq_true, if_false, if_true] at h
    split at h <;> cases h
  · simp only [hp, hq, Bool.false_eq_true, if_false, if_true] at h
    split at h <;> cases h
  · rfl

/-- Paths lead to the same place if they start alike and have the same segments. -/
theorem same_iff {q : Path} :
    p.same q = true ↔ p.start = q.start ∧ p.segments = q.segments := by
  have hstart : ∀ r : Path, r.components.filter Component.isStart = r.start := by
    intro r
    have hsegments : (r.segments.map Component.ofSegment).filter Component.isStart = [] := by
      simp [List.filter_eq_nil_iff, isStart_ofSegment]
    rw [components, List.filter_append, hsegments, List.append_nil]
    exact List.filter_eq_self.mpr fun c hc => isStart_of_mem_start hc
  have hsegments : ∀ r : Path, r.components.filter (fun c => !c.isStart) =
      r.segments.map Component.ofSegment := by
    intro r
    have hnone : r.start.filter (fun c => !c.isStart) = [] :=
      List.filter_eq_nil_iff.mpr fun c hc => by simp [isStart_of_mem_start hc]
    rw [components, List.filter_append, hnone, List.nil_append]
    exact List.filter_eq_self.mpr (by simp [isStart_ofSegment])
  rw [same, beq_iff_eq]
  constructor
  · intro h
    refine ⟨by rw [← hstart, h, hstart], ?_⟩
    refine ofSegment_injective.list_map ?_
    rw [← hsegments, h, hsegments]
  · rintro ⟨h, h'⟩
    rw [components, components, h, h']

/-! ## Children -/

/-- What is put below a path comes after a slash, which the path may already end with. -/
theorem toList_child (hp : p.text ≠ "") (h : (Path.mk text).isAbsolute = false) :
    ∃ front, (p.child text).text.toList = front ++ '/' :: text.toList ∧
      (p.text.toList = front ∨ p.text.toList = front ++ ['/']) := by
  rw [child, join, h, if_neg (by decide)]
  split
  · rename_i hslash
    have hlast : p.text.toList.getLast? = some '/' := by simpa [hp] using hslash
    obtain ⟨front, hfront⟩ := List.getLast?_eq_some_iff.mp hlast
    exact ⟨front, by simp [hfront], .inr hfront⟩
  · exact ⟨p.text.toList, by simp, .inl rfl⟩

theorem child_of_empty (hp : p.text = "") (h : (Path.mk text).isAbsolute = false) :
    p.child text = ⟨text⟩ := by
  simp [child, join, h, hp]

theorem parts_child (hp : p.text ≠ "") (h : (Path.mk text).isAbsolute = false) :
    ∃ front, front ≠ [] ∧ (p.child text).parts = front ++ (Path.mk text).parts ∧
      (p.parts = front ∨ p.parts = front ++ [[]]) := by
  obtain ⟨front, hchild, hfront⟩ := toList_child hp h
  refine ⟨front.splitOn '/', List.splitOn_ne_nil '/' _, ?_, ?_⟩
  · rw [parts, hchild, List.splitOn_append_cons_self, parts]
  · rw [parts]
    obtain hfront | hfront := hfront
    · exact .inl (by rw [hfront])
    · exact .inr (by rw [hfront, List.splitOn_append_cons_self, List.splitOn_nil])

theorem segments_child (h : (Path.mk text).isAbsolute = false) :
    (p.child text).segments = p.segments ++ (Path.mk text).segments := by
  by_cases hp : p.text = ""
  · have hsegments : p.segments = [] := by simp [segments, parts, hp, isSegment]
    rw [child_of_empty hp h, hsegments, List.nil_append]
  · obtain ⟨front, -, hchild, hfront | hfront⟩ := parts_child hp h
    · rw [segments, hchild, segments, hfront, List.filter_append, segments]
    · rw [segments, hchild, segments, hfront, List.filter_append, List.filter_append, segments]
      simp [isSegment]

theorem isAbsolute_child (hp : p.text ≠ "") (h : (Path.mk text).isAbsolute = false) :
    (p.child text).isAbsolute = p.isAbsolute := by
  obtain ⟨front, hchild, hfront | hfront⟩ := toList_child hp h
  · have hne : p.text.toList ≠ [] := by simpa using hp
    obtain ⟨c, rest, hrest⟩ := List.exists_cons_of_ne_nil hne
    rw [isAbsolute, hchild, isAbsolute, ← hfront, hrest]
    rfl
  · rw [isAbsolute, hchild, isAbsolute, hfront]
    cases front <;> rfl

theorem start_child (hp : p.text ≠ "") (h : (Path.mk text).isAbsolute = false) :
    (p.child text).start = p.start := by
  have hhead : (p.child text).parts.head? = p.parts.head? := by
    obtain ⟨front, hne, hchild, hfront⟩ := parts_child hp h
    obtain ⟨first, rest, rfl⟩ := List.exists_cons_of_ne_nil hne
    obtain hfront | hfront := hfront <;> rw [hchild, hfront] <;> rfl
  rw [start, start, isAbsolute_child hp h, hhead]

/-! ## Names -/

theorem parts_ofName (h : IsName name) : (Path.mk (String.ofList name)).parts = [name] := by
  rw [← joined_singleton]
  exact parts_joined (by simpa using h) (by simp)

theorem segments_ofName (h : IsName name) : (Path.mk (String.ofList name)).segments = [name] := by
  rw [segments, parts_ofName h]
  simp [h.1]

theorem isName_of_mem_segments (h : ['.', '.'] ∉ p.parts) (hpart : part ∈ p.segments) :
    IsName part := by
  obtain ⟨hmem, hsegment⟩ := List.mem_filter.mp hpart
  exact ⟨hsegment, fun hdots => h (hdots ▸ hmem), Text.not_mem_of_mem_splitOn hmem⟩

theorem segments_joined (h : ∀ name ∈ names, IsName name) (hne : names ≠ []) :
    (Path.mk (joined names)).segments = names := by
  rw [segments, parts_joined h hne]
  exact List.filter_eq_self.mpr fun name hname => (h name hname).1

theorem endsWithName_joined (h : ∀ name ∈ names, IsName name) (hne : names ≠ []) :
    (Path.mk (joined names)).EndsWithName := by
  refine ⟨names.dropLast, names.getLast hne, ?_, h _ (List.getLast_mem hne)⟩
  rw [parts_joined h hne, List.dropLast_append_getLast hne]

theorem endsWithName_iff : p.EndsWithName ↔ ∃ name, p.parts.getLast? = some name ∧ IsName name := by
  simp only [EndsWithName, List.getLast?_eq_some_iff]
  constructor
  · rintro ⟨front, name, hparts, hname⟩
    exact ⟨name, ⟨front, hparts⟩, hname⟩
  · rintro ⟨name, ⟨front, hparts⟩, hname⟩
    exact ⟨front, name, hparts, hname⟩

theorem endsWithName_child_iff (hp : p.text ≠ "") (h : (Path.mk text).isAbsolute = false) :
    (p.child text).EndsWithName ↔ (Path.mk text).EndsWithName := by
  obtain ⟨front, -, hchild, -⟩ := parts_child hp h
  rw [endsWithName_iff, endsWithName_iff, hchild, List.getLast?_append, Option.or_of_isSome]
  exact List.getLast?_isSome.mpr (parts_ne_nil _)

theorem isAbsolute_iff : p.isAbsolute = true ↔ ∃ rest, p.text.toList = '/' :: rest := by
  rw [isAbsolute, beq_iff_eq]
  cases p.text.toList <;> simp

theorem isAbsolute_joined (h : ∀ part ∈ parts, IsName part) :
    (Path.mk (joined parts)).isAbsolute = false := by
  rw [← Bool.not_eq_true, isAbsolute_iff]
  rintro ⟨rest, hrest⟩
  cases parts with
  | nil => simp [joined] at hrest
  | cons part others =>
      have hparts : (Path.mk (joined (part :: others))).parts = part :: others :=
        parts_joined h (by simp)
      -- a text that starts with a slash has an empty first part
      have hempty : part = [] := by
        rw [Path.parts, hrest] at hparts
        simpa using (List.cons.inj hparts).1.symm
      exact (h part (by simp)).ne_nil hempty

theorem fileName?_eq_bind (p : Path) : p.fileName? =
    p.segments.getLast?.bind fun segment =>
      if segment = ['.', '.'] then none else some (String.ofList segment) := by
  rw [fileName?, components, List.getLast?_append, List.getLast?_map]
  cases p.segments.getLast? with
  | none =>
      -- where a path starts is no name
      cases hlast : p.start.getLast? with
      | none => rfl
      | some c =>
          have hstart := isStart_of_mem_start (List.mem_of_getLast? hlast)
          cases c with
          | name name => cases hstart
          | root => rfl
          | current => rfl
          | parent => rfl
  | some segment =>
      by_cases hdots : segment = ['.', '.']
      · simp [hdots, Component.ofSegment]
      · simp [hdots, Component.ofSegment]

theorem fileName?_child (h : IsName name) :
    (p.child (String.ofList name)).fileName? = some (String.ofList name) := by
  have hrelative : (Path.mk (String.ofList name)).isAbsolute = false := by
    rw [← joined_singleton]
    exact isAbsolute_joined (by simpa using h)
  rw [fileName?_eq_bind, segments_child hrelative, segments_ofName h]
  simp [h.2.1]

theorem exists_child_eq (p : Path) :
    ∃ above, ∀ text, (Path.mk text).isAbsolute = false → p.child text = ⟨above ++ text⟩ := by
  by_cases h : (p.text.isEmpty || p.text.toList.getLast? == some '/') = true
  · exact ⟨p.text, fun text htext => by simp only [child, join, htext, h]; rfl⟩
  · rw [Bool.not_eq_true] at h
    exact ⟨p.text ++ "/", fun text htext => by simp only [child, join, htext, h]; rfl⟩

theorem isAbsolute_ofName (h : IsName name) (text : String) :
    (Path.mk (String.ofList name ++ text)).isAbsolute = false := by
  obtain ⟨c, rest, rfl⟩ := List.exists_cons_of_ne_nil h.ne_nil
  have hc : c ≠ '/' := fun heq => h.2.2 (by simp [heq])
  simp [isAbsolute, hc]

theorem getLast?_ofName (h : IsName name) (above : String) :
    (above ++ String.ofList name).toList.getLast? ≠ some '/' := by
  rw [String.toList_append, String.toList_ofList, List.getLast?_append, Option.or_of_isSome
    (List.getLast?_isSome.mpr h.ne_nil)]
  exact fun hlast => h.2.2 (List.mem_of_getLast? hlast)

theorem text_child_ne_empty (p : Path) (h : IsName name) :
    (p.child (String.ofList name)).text ≠ "" := by
  obtain ⟨above, hchild⟩ := exists_child_eq p
  rw [hchild _ (by simpa using isAbsolute_ofName h "")]
  simp [h.ne_nil]

theorem child_injective {name' : List Char} (h : IsName name) (h' : IsName name')
    (heq : p.child (String.ofList name) = p.child (String.ofList name')) : name = name' := by
  have hfile := fileName?_child (p := p) h
  rw [heq, fileName?_child h', Option.some.injEq, String.ofList_inj] at hfile
  exact hfile.symm

/-- Going down by a name and then by a text is going down once. -/
theorem child_child (h : IsName name) (hrelative : (Path.mk text).isAbsolute = false) :
    (p.child (String.ofList name)).child text = p.child (String.ofList name ++ "/" ++ text) := by
  obtain ⟨above, hchild⟩ := exists_child_eq p
  have hfirst : (Path.mk (String.ofList name)).isAbsolute = false := by
    simpa using isAbsolute_ofName h ""
  have hlonger : (Path.mk (String.ofList name ++ "/" ++ text)).isAbsolute = false := by
    rw [String.append_assoc]
    exact isAbsolute_ofName h _
  have hempty : (above ++ String.ofList name).isEmpty = false := by
    simp [String.isEmpty_eq_false_iff, h.ne_nil]
  rw [hchild _ hlonger, hchild _ hfirst, child, join, hrelative, hempty,
    beq_false_of_ne (getLast?_ofName h above)]
  simp [String.append_assoc]

theorem descend_eq_child (h : ∀ name ∈ names, IsName name) (hne : names ≠ []) :
    p.descend names = p.child (joined names) := by
  induction names generalizing p with
  | nil => exact absurd rfl hne
  | cons name rest ih =>
      obtain ⟨hname, hrest⟩ := List.forall_mem_cons.mp h
      by_cases hnil : rest = []
      · subst hnil
        rw [joined_singleton]
        rfl
      · rw [joined_cons name hnil, ← child_child hname (isAbsolute_joined hrest)]
        exact ih hrest hnil

end ModuleSearch.Path
