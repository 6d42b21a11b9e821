import ModuleSearch.NameMap
import ModuleSearch.Proofs.Path
import ModuleSearch.Storage.Volume

/-!
# Trees of files

A tree is well-formed if all names in it are names and no directory holds one twice. Putting a file
into a tree keeps it well-formed (`WellFormed.put`), and no directory lies deeper than the depth of
the tree (`length_lt_depth`).
-/

open ModuleSearch.Path (IsName)

namespace ModuleSearch

namespace Node

/-- Every directory holds each name once, and nothing but names. -/
inductive WellFormed : Node → Prop
  | file (content : ByteArray) : WellFormed (file content)
  | directory {children : List (String × Node)}
      (hascending : children.Pairwise fun a b => a.1 < b.1)
      (hnames : ∀ c ∈ children, IsName c.1.toList) (hchildren : ∀ c ∈ children, WellFormed c.2) :
      WellFormed (directory children)

variable {n m new : Node} {name : String} {location : Location}

theorem WellFormed.ascending (h : n.WellFormed) : n.children.Pairwise fun a b => a.1 < b.1 := by
  cases h with
  | file content => exact .nil
  | directory hascending _ _ => exact hascending

theorem WellFormed.isName (h : n.WellFormed) : ∀ c ∈ n.children, IsName c.1.toList := by
  cases h with
  | file content => simp [children]
  | directory _ hnames _ => exact hnames

theorem WellFormed.children (h : n.WellFormed) : ∀ c ∈ n.children, c.2.WellFormed := by
  cases h with
  | file content => simp [Node.children]
  | directory _ _ hchildren => exact hchildren

theorem lookup_eq_lookup (name : String) (children : List (String × Node)) :
    children.lookup name = NameMap.lookup name children := by
  induction children with
  | nil => rfl
  | cons c rest ih =>
      obtain ⟨key, child⟩ := c
      by_cases h : key = name
      · simp [NameMap.lookup, h]
      · simp [NameMap.lookup, h, List.lookup_cons, beq_false_of_ne (Ne.symm h), ih]

theorem mem_of_child? (h : n.child? name = some m) : (name, m) ∈ n.children := by
  rw [child?, lookup_eq_lookup] at h
  exact NameMap.mem_of_lookup_eq_some h

theorem at?_append (n : Node) (location below : Location) :
    n.at? (location ++ below) = (n.at? location).bind fun m => m.at? below := by
  induction location generalizing n with
  | nil => rfl
  | cons name rest ih =>
      simp only [List.cons_append, Node.at?, Option.bind_assoc]
      exact congrArg _ (funext fun child => ih child)

theorem WellFormed.at? (h : n.WellFormed) (hm : n.at? location = some m) : m.WellFormed := by
  induction location generalizing n with
  | nil => exact Option.some.inj hm ▸ h
  | cons name rest ih =>
      obtain ⟨child, hchild, hrest⟩ := Option.bind_eq_some_iff.mp hm
      exact ih (h.children _ (mem_of_child? hchild)) hrest

theorem depth_le_depthList {children : List (String × Node)} {c : String × Node}
    (h : c ∈ children) : c.2.depth ≤ depthList children := by
  induction children with
  | nil => simp at h
  | cons d rest ih =>
      rw [depthList]
      rcases List.mem_cons.mp h with rfl | h
      · exact Nat.le_max_left ..
      · exact Nat.le_trans (ih h) (Nat.le_max_right ..)

theorem depth_lt_of_child? (h : n.child? name = some m) : m.depth < n.depth := by
  cases n with
  | file content => simp [child?, Node.children] at h
  | directory children =>
      rw [depth]
      exact Nat.lt_succ_of_le (depth_le_depthList (mem_of_child? h))

theorem depth_le_of_at? (h : n.at? location = some m) : m.depth ≤ n.depth := by
  induction location generalizing n with
  | nil =>
      obtain rfl := Option.some.inj h
      exact Nat.le_refl _
  | cons name rest ih =>
      obtain ⟨child, hchild, hrest⟩ := Option.bind_eq_some_iff.mp h
      exact Nat.le_trans (ih hrest) (Nat.le_of_lt (depth_lt_of_child? hchild))

/-- A directory lies less deep than the depth of the tree. -/
theorem length_lt_depth (h : n.at? location = some m) (hm : m.isDirectory = true) :
    location.length < n.depth := by
  induction location generalizing n with
  | nil =>
      obtain rfl := Option.some.inj h
      cases n with
      | file content => cases hm
      | directory children => simp [depth]
  | cons name rest ih =>
      obtain ⟨child, hchild, hrest⟩ := Option.bind_eq_some_iff.mp h
      have hlength := ih hrest
      have hdepth := depth_lt_of_child? hchild
      rw [List.length_cons]
      omega

theorem updateChild_eq (name : String) (f : Option Node → Node) (children : List (String × Node)) :
    updateChild name f children = NameMap.upsertEntry name f children := by
  induction children with
  | nil => rfl
  | cons c rest ih => rw [updateChild, NameMap.upsertEntry, ih]

theorem of_mem_updateChild {f : Option Node → Node} {children : List (String × Node)}
    {c : String × Node} (h : c ∈ updateChild name f children) :
    c ∈ children ∨ c.1 = name ∧ ∃ old, (∀ o ∈ old, (name, o) ∈ children) ∧ c.2 = f old := by
  induction children with
  | nil =>
      obtain rfl : c = (name, f none) := by simpa [updateChild] using h
      exact .inr ⟨rfl, none, by simp, rfl⟩
  | cons d rest ih =>
      obtain ⟨key, child⟩ := d
      rw [updateChild] at h
      split at h
      · rcases List.mem_cons.mp h with rfl | h
        · exact .inr ⟨rfl, none, by simp, rfl⟩
        · exact .inl h
      · split at h
        · rename_i hkey
          subst hkey
          rcases List.mem_cons.mp h with rfl | h
          · exact .inr ⟨rfl, some child, by simp, rfl⟩
          · exact .inl (List.mem_cons_of_mem _ h)
        · rcases List.mem_cons.mp h with rfl | h
          · exact .inl (by simp)
          · rcases ih h with h | ⟨hname, old, hold, hc⟩
            · exact .inl (List.mem_cons_of_mem _ h)
            · exact .inr ⟨hname, old, fun o ho => List.mem_cons_of_mem _ (hold o ho), hc⟩

theorem WellFormed.put (h : n.WellFormed) (hnew : new.WellFormed)
    (hlocation : ∀ name ∈ location, IsName name.toList) : (put new location n).WellFormed := by
  induction location generalizing n with
  | nil => exact hnew
  | cons name rest ih =>
      obtain ⟨hname, hrest⟩ := List.forall_mem_cons.mp hlocation
      rw [Node.put]
      refine .directory ?_ (fun c hc => ?_) (fun c hc => ?_)
      · rw [updateChild_eq]
        exact NameMap.pairwise_upsertEntry _ _ h.ascending
      · rcases of_mem_updateChild hc with hc | ⟨rfl, -⟩
        · exact h.isName c hc
        · exact hname
      · rcases of_mem_updateChild hc with hc | ⟨-, old, hold, hc⟩
        · exact h.children c hc
        · rw [hc]
          refine ih ?_ hrest
          cases old with
          | none => exact .directory .nil (by simp) (by simp)
          | some o => exact h.children _ (hold o rfl)

/-! ## The files of a tree -/

mutual

/-- The files with their locations. -/
def files : Node → List (Location × ByteArray)
  | file content => [([], content)]
  | directory children => filesIn children

def filesIn : List (String × Node) → List (Location × ByteArray)
  | [] => []
  | (name, n) :: rest => n.files.map (fun f => (name :: f.1, f.2)) ++ filesIn rest

end

theorem mem_filesIn {children : List (String × Node)} {f : Location × ByteArray} :
    f ∈ filesIn children ↔ ∃ c ∈ children, ∃ g ∈ c.2.files, (c.1 :: g.1, g.2) = f := by
  induction children with
  | nil => simp [filesIn]
  | cons c rest ih =>
      rw [filesIn, List.mem_append, List.mem_map, ih, List.exists_mem_cons_iff]

theorem child?_eq_some_iff (h : n.WellFormed) :
    n.child? name = some m ↔ (name, m) ∈ n.children := by
  refine ⟨mem_of_child?, fun hm => ?_⟩
  rw [child?, lookup_eq_lookup]
  exact NameMap.lookup_eq_some_of_mem h.ascending hm

theorem mem_files (h : n.WellFormed) {content : ByteArray} :
    (location, content) ∈ n.files ↔ n.at? location = some (file content) := by
  induction location generalizing n with
  | nil =>
      cases n with
      | file other => simp [files, Node.at?, eq_comm]
      | directory children => simp [files, Node.at?, mem_filesIn]
  | cons name rest ih =>
      have hchild : n.at? (name :: rest) = some (file content) ↔
          ∃ child, (name, child) ∈ n.children ∧ (rest, content) ∈ child.files := by
        rw [Node.at?, Option.bind_eq_some_iff]
        refine exists_congr fun child => ?_
        rw [child?_eq_some_iff h]
        exact and_congr_right fun hmem => (ih (h.children _ hmem)).symm
      rw [hchild]
      cases n with
      | file other => simp [files, Node.children]
      | directory children =>
          rw [files, mem_filesIn]
          constructor
          · rintro ⟨⟨key, child⟩, hmem, ⟨below, content'⟩, hg, heq⟩
            obtain ⟨⟨rfl, rfl⟩, rfl⟩ : (key = name ∧ below = rest) ∧ content' = content := by
              simpa using heq
            exact ⟨child, hmem, hg⟩
          · rintro ⟨child, hmem, hg⟩
            exact ⟨(name, child), hmem, (rest, content), hg, rfl⟩

/-- No directory is empty. -/
inductive Dense : Node → Prop
  | file (content : ByteArray) : Dense (file content)
  | directory {children : List (String × Node)} (hne : children ≠ [])
      (hchildren : ∀ c ∈ children, Dense c.2) : Dense (directory children)

theorem dense_directory_iff {children : List (String × Node)} :
    (directory children).Dense ↔ children ≠ [] ∧ ∀ c ∈ children, c.2.Dense := by
  constructor
  · rintro ⟨⟩
    exact ⟨‹_›, ‹_›⟩
  · exact fun h => .directory h.1 h.2

theorem Dense.at? (h : n.Dense) (hm : n.at? location = some m) : m.Dense := by
  induction location generalizing n with
  | nil => exact Option.some.inj hm ▸ h
  | cons name rest ih =>
      obtain ⟨child, hchild, hrest⟩ := Option.bind_eq_some_iff.mp hm
      cases h with
      | file content => simp [child?, children] at hchild
      | directory hne hchildren => exact ih (hchildren _ (mem_of_child? hchild)) hrest

theorem Dense.exists_file (h : n.Dense) :
    ∃ location content, n.at? location = some (.file content) := by
  induction h with
  | file content => exact ⟨[], content, rfl⟩
  | @directory children hne hchildren ih =>
      obtain ⟨⟨name, child⟩, rest, rfl⟩ := List.exists_cons_of_ne_nil hne
      obtain ⟨location, content, hat⟩ := ih (name, child) (by simp)
      exact ⟨name :: location, content, by simpa [Node.at?, child?, Node.children] using hat⟩

end Node

end ModuleSearch
