/-!
# Finite maps keyed by names

Entries are held in strictly ascending order of their names, so two maps with the same entries are
equal, and listing a map needs no sorting. Names are ordered by code point, which is also the
order of their UTF-8 bytes.

Main statements: `get?_upsert`, which says what the one update operation does, and `ext_get?`:
maps that answer every name alike are equal.
-/

namespace ModuleSearch

structure NameMap (α : Type) where
  entries : List (String × α)
  sorted : entries.Pairwise fun a b => a.1 < b.1

namespace NameMap

variable {α β : Type}

deriving instance DecidableEq for NameMap

instance [Repr α] : Repr (NameMap α) := ⟨fun m n => reprPrec m.entries n⟩

def empty : NameMap α := ⟨[], .nil⟩

instance : Inhabited (NameMap α) := ⟨empty⟩

def keys (m : NameMap α) : List String := m.entries.map Prod.fst

def values (m : NameMap α) : List α := m.entries.map Prod.snd

def lookup (name : String) : List (String × α) → Option α
  | [] => none
  | (k, v) :: rest => if k = name then some v else lookup name rest

def get? (m : NameMap α) (name : String) : Option α := lookup name m.entries

def contains (m : NameMap α) (name : String) : Bool := (m.get? name).isSome

/-- Replaces the value at a name by `f` of what was there, keeping the order. -/
def upsertEntry (name : String) (f : Option α → α) : List (String × α) → List (String × α)
  | [] => [(name, f none)]
  | (k, v) :: rest =>
    if name < k then (name, f none) :: (k, v) :: rest
    else if name = k then (k, f (some v)) :: rest
    else (k, v) :: upsertEntry name f rest

theorem mem_upsertEntry {name : String} {f : Option α → α} {l : List (String × α)}
    {e : String × α} (h : e ∈ upsertEntry name f l) : e.1 = name ∨ ∃ d ∈ l, d.1 = e.1 := by
  induction l with
  | nil => simp_all [upsertEntry]
  | cons d rest ih =>
    obtain ⟨k, v⟩ := d
    rw [upsertEntry] at h
    split at h
    · rcases List.mem_cons.1 h with rfl | h
      · exact .inl rfl
      · exact .inr ⟨e, h, rfl⟩
    · split at h
      · rename_i hk
        rcases List.mem_cons.1 h with rfl | h
        · exact .inl hk.symm
        · exact .inr ⟨e, List.mem_cons_of_mem _ h, rfl⟩
      · rcases List.mem_cons.1 h with rfl | h
        · exact .inr ⟨(k, v), by simp, rfl⟩
        · rcases ih h with h | ⟨d, hd, he⟩
          · exact .inl h
          · exact .inr ⟨d, List.mem_cons_of_mem _ hd, he⟩

theorem lt_of_not_lt_of_ne {a b : String} (h : ¬ a < b) (h' : a ≠ b) : b < a := by
  rcases String.le_total a b with hab | hba
  · exact absurd (String.le_antisymm hab (String.not_lt.1 h)) h'
  · exact Decidable.byContradiction fun hn =>
      h' (String.le_antisymm (String.not_lt.1 hn) hba)

theorem pairwise_upsertEntry (name : String) (f : Option α → α) {l : List (String × α)}
    (h : l.Pairwise fun a b => a.1 < b.1) :
    (upsertEntry name f l).Pairwise fun a b => a.1 < b.1 := by
  induction l with
  | nil => simp [upsertEntry]
  | cons d rest ih =>
    obtain ⟨k, v⟩ := d
    obtain ⟨hd, hrest⟩ := List.pairwise_cons.1 h
    rw [upsertEntry]
    split
    · rename_i hlt
      refine List.pairwise_cons.2 ⟨fun e he => ?_, h⟩
      rcases List.mem_cons.1 he with rfl | he
      · exact hlt
      · exact String.lt_trans hlt (hd e he)
    · split
      · exact List.pairwise_cons.2 ⟨hd, hrest⟩
      · rename_i hlt hne
        refine List.pairwise_cons.2 ⟨fun e he => ?_, ih hrest⟩
        rcases mem_upsertEntry he with he | ⟨d, hmem, he⟩
        · exact he ▸ lt_of_not_lt_of_ne hlt hne
        · exact he ▸ hd d hmem

def upsert (m : NameMap α) (name : String) (f : Option α → α) : NameMap α :=
  ⟨upsertEntry name f m.entries, pairwise_upsertEntry name f m.sorted⟩

def insert (m : NameMap α) (name : String) (value : α) : NameMap α :=
  m.upsert name fun _ => value

/-- Keeps the value that is there already. -/
def insertIfNew (m : NameMap α) (name : String) (value : α) : NameMap α :=
  m.upsert name fun old => old.getD value

/-- Of two entries with one name the later wins. -/
def ofList (l : List (String × α)) : NameMap α :=
  l.foldl (fun m e => m.insert e.1 e.2) empty

@[simp] theorem get?_empty (name : String) : (empty : NameMap α).get? name = none := rfl

theorem lookup_eq_none_of_lt {name : String} {l : List (String × α)}
    (h : ∀ e ∈ l, name < e.1) : lookup name l = none := by
  induction l with
  | nil => rfl
  | cons d rest ih =>
    have hd : d.1 ≠ name := fun he => String.lt_irrefl d.1 (by simpa [he] using h d (by simp))
    simpa [lookup, hd] using ih fun e he => h e (List.mem_cons_of_mem _ he)

theorem lookup_upsertEntry (name other : String) (f : Option α → α) {l : List (String × α)}
    (h : l.Pairwise fun a b => a.1 < b.1) :
    lookup other (upsertEntry name f l) =
      if other = name then some (f (lookup name l)) else lookup other l := by
  induction l with
  | nil => simp [upsertEntry, lookup, eq_comm]
  | cons d rest ih =>
    obtain ⟨k, v⟩ := d
    obtain ⟨hd, hrest⟩ := List.pairwise_cons.1 h
    rw [upsertEntry]
    split
    · rename_i hlt
      have hnone : lookup name ((k, v) :: rest) = none := lookup_eq_none_of_lt fun e he => by
        rcases List.mem_cons.1 he with rfl | he
        · exact hlt
        · exact String.lt_trans hlt (hd e he)
      rw [hnone]
      by_cases ho : other = name
      · simp [lookup, ho]
      · rw [lookup, if_neg (Ne.symm ho), if_neg ho]
    · split
      · rename_i hk
        subst hk
        by_cases ho : other = name
        · simp [lookup, ho]
        · simp [lookup, Ne.symm ho, ho]
      · rename_i hlt hne
        by_cases hok : k = other
        · subst hok
          simp [lookup, Ne.symm hne]
        · simp [lookup, hok, ih hrest, Ne.symm hne]

/-- An update changes the answer at its own name and nowhere else. -/
theorem get?_upsert (m : NameMap α) (name other : String) (f : Option α → α) :
    (m.upsert name f).get? other = if other = name then some (f (m.get? name)) else m.get? other :=
  lookup_upsertEntry name other f m.sorted

@[simp] theorem get?_insert (m : NameMap α) (name other : String) (value : α) :
    (m.insert name value).get? other = if other = name then some value else m.get? other :=
  get?_upsert m name other _

@[simp] theorem get?_insertIfNew (m : NameMap α) (name other : String) (value : α) :
    (m.insertIfNew name value).get? other =
      if other = name then some ((m.get? name).getD value) else m.get? other :=
  get?_upsert m name other _

theorem lookup_eq_some_of_mem {l : List (String × α)} (h : l.Pairwise fun a b => a.1 < b.1)
    {e : String × α} (he : e ∈ l) : lookup e.1 l = some e.2 := by
  induction l with
  | nil => simp at he
  | cons d rest ih =>
    obtain ⟨hd, hrest⟩ := List.pairwise_cons.1 h
    rcases List.mem_cons.1 he with rfl | he
    · simp [lookup]
    · have hne : d.1 ≠ e.1 := fun heq => String.lt_irrefl e.1 (by simpa [heq] using hd e he)
      simpa [lookup, hne] using ih hrest he

theorem mem_of_lookup_eq_some {name : String} {value : α} {l : List (String × α)}
    (h : lookup name l = some value) : (name, value) ∈ l := by
  induction l with
  | nil => simp [lookup] at h
  | cons d rest ih =>
    obtain ⟨k, v⟩ := d
    rw [lookup] at h
    split at h
    · simp_all
    · exact List.mem_cons_of_mem _ (ih h)

/-- A name has a value exactly when the pair is an entry. -/
theorem get?_eq_some_iff {m : NameMap α} {name : String} {value : α} :
    m.get? name = some value ↔ (name, value) ∈ m.entries :=
  ⟨mem_of_lookup_eq_some, fun h => lookup_eq_some_of_mem m.sorted h⟩

theorem entries_ext {l₁ l₂ : List (String × α)} (h₁ : l₁.Pairwise fun a b => a.1 < b.1)
    (h₂ : l₂.Pairwise fun a b => a.1 < b.1)
    (h : ∀ name, lookup name l₁ = lookup name l₂) : l₁ = l₂ := by
  induction l₁ generalizing l₂ with
  | nil =>
    cases l₂ with
    | nil => rfl
    | cons d rest => simpa [lookup] using h d.1
  | cons d rest ih =>
    cases l₂ with
    | nil => simpa [lookup] using h d.1
    | cons e rest' =>
      obtain ⟨hd, hrest⟩ := List.pairwise_cons.1 h₁
      obtain ⟨he, hrest'⟩ := List.pairwise_cons.1 h₂
      have hde := mem_of_lookup_eq_some (h d.1 ▸ lookup_eq_some_of_mem h₁ (by simp) :
        lookup d.1 (e :: rest') = some d.2)
      have hed := mem_of_lookup_eq_some (h e.1 ▸ lookup_eq_some_of_mem h₂ (by simp) :
        lookup e.1 (d :: rest) = some e.2)
      have heq : d = e := by
        rcases List.mem_cons.1 hde with hde | hde
        · exact hde
        · rcases List.mem_cons.1 hed with hed | hed
          · exact hed.symm
          · exact absurd (String.lt_trans (hd _ hed) (he _ hde)) (String.lt_irrefl _)
      subst heq
      refine congrArg (d :: ·) (ih hrest hrest' fun name => ?_)
      have := h name
      rw [lookup, lookup] at this
      by_cases hn : d.1 = name
      · rw [lookup_eq_none_of_lt fun x hx => hn ▸ hd x hx,
          lookup_eq_none_of_lt fun x hx => hn ▸ he x hx]
      · simpa [hn] using this

/-- Maps that answer every name alike are equal. -/
theorem ext_get? {m₁ m₂ : NameMap α} (h : ∀ name, m₁.get? name = m₂.get? name) : m₁ = m₂ := by
  obtain ⟨l₁, h₁⟩ := m₁
  obtain ⟨l₂, h₂⟩ := m₂
  have := entries_ext h₁ h₂ h
  subst this
  rfl

theorem mem_keys {m : NameMap α} {name : String} :
    name ∈ m.keys ↔ (m.get? name).isSome := by
  rw [Option.isSome_iff_exists]
  constructor
  · intro h
    obtain ⟨⟨key, value⟩, he, rfl⟩ := List.mem_map.mp h
    exact ⟨value, get?_eq_some_iff.mpr he⟩
  · rintro ⟨value, h⟩
    exact List.mem_map.mpr ⟨(name, value), get?_eq_some_iff.mp h, rfl⟩

theorem keys_ascending (m : NameMap α) : m.keys.Pairwise (· < ·) :=
  List.pairwise_map.mpr m.sorted

end NameMap

/-- Sets of names, in ascending order. -/
abbrev NameSet := NameMap Unit

namespace NameSet

def add (s : NameSet) (name : String) : NameSet := s.insert name ()

def ofNames (names : List String) : NameSet := names.foldl add .empty

def toList (s : NameSet) : List String := s.keys

theorem toList_empty : toList .empty = [] := rfl

theorem mem_add {s : NameSet} {name other : String} :
    other ∈ (s.add name).toList ↔ other ∈ s.toList ∨ other = name := by
  rw [toList, toList, NameMap.mem_keys, NameMap.mem_keys, add, NameMap.get?_insert]
  by_cases h : other = name <;> simp [h]

theorem mem_foldl_add {names : List String} {s : NameSet} {name : String} :
    name ∈ (names.foldl add s).toList ↔ name ∈ s.toList ∨ name ∈ names := by
  induction names generalizing s with
  | nil => simp
  | cons first rest ih => rw [List.foldl_cons, ih, mem_add, List.mem_cons, or_assoc]

theorem mem_ofNames {names : List String} {name : String} :
    name ∈ (ofNames names).toList ↔ name ∈ names := by
  rw [ofNames, mem_foldl_add, toList_empty]
  simp

/-- Sets with the same members are equal. -/
theorem ext_toList {s t : NameSet} (h : ∀ name, name ∈ s.toList ↔ name ∈ t.toList) : s = t := by
  apply NameMap.ext_get?
  intro name
  have hname := h name
  rw [toList, toList, NameMap.mem_keys, NameMap.mem_keys] at hname
  cases hs : s.get? name <;> cases ht : t.get? name <;> simp_all

theorem toList_ascending (s : NameSet) : s.toList.Pairwise (· < ·) := NameMap.keys_ascending s

end NameSet

end ModuleSearch
