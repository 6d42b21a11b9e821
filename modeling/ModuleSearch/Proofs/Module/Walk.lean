import Mathlib.Data.List.Nodup
import ModuleSearch.Module.Content
import ModuleSearch.Proofs.Except
import ModuleSearch.Proofs.Storage.Lawful

/-!
# Walking a directory

A walk lists what lies below a directory: every file that can be reached by names (`mem_of_walk`),
nothing else (`of_mem_walk`), and nothing twice (`nodup_walk`).
-/

open ModuleSearch.Path (IsName joined)

namespace ModuleSearch.Source

variable {storage : Storage} {depth : Nat} {above name : String} {directory : Path}
  {found : List String} {names : List (List Char)}

theorem walk_zero : walk storage 0 above directory = .error (.unreadable directory) := rfl

theorem walk_eq (storage : Storage) (depth : Nat) (above : String) (directory : Path) :
    walk storage (depth + 1) above directory =
      match storage.children directory with
      | none => .error (.unreadable directory)
      | some children => do
        let found ← children.mapM fun child =>
          match child.fileName? with
          | none => .ok []
          | some name =>
            if storage.isDirectory child then walk storage depth (above ++ name ++ "/") child
            else .ok [above ++ name]
        return found.flatten := by
  have hchildren : storage.files.children directory = storage.children directory := rfl
  rw [walk, Files.walk, hchildren]
  cases storage.children directory with
  | none => rfl
  | some children => rfl

/-- What a walk lists for one name in a directory. -/
def walkName (storage : Storage) (depth : Nat) (above : String) (directory : Path)
    (name : List Char) : Except SearchError (List String) :=
  let child := directory.child (String.ofList name)
  if storage.isDirectory child then walk storage depth (above ++ String.ofList name ++ "/") child
  else .ok [above ++ String.ofList name]

theorem walk_succ (hnames : ∀ name ∈ names, IsName name)
    (hlist : storage.children directory =
      some (names.map fun name => directory.child (String.ofList name))) :
    walk storage (depth + 1) above directory =
      (names.mapM (walkName storage depth above directory)).map List.flatten := by
  rw [walk_eq, hlist]
  dsimp only
  have hmap : ∀ k : Path → Except SearchError (List String),
      (∀ name ∈ names, k (directory.child (String.ofList name)) =
        walkName storage depth above directory name) →
      (names.map fun name => directory.child (String.ofList name)).mapM k =
        names.mapM (walkName storage depth above directory) := fun k hk => mapM_map_congr hk
  rw [hmap _ fun name hname => by rw [Path.fileName?_child (hnames name hname)]; rfl]
  cases names.mapM (walkName storage depth above directory) <;> rfl

theorem walk_of_children_eq_none (h : storage.children directory = none) (depth : Nat) :
    walk storage depth above directory = .error (.unreadable directory) := by
  cases depth with
  | zero => rfl
  | succ depth =>
      rw [walk_eq, h]

theorem of_walk (hs : storage.Lawful) (h : walk storage (depth + 1) above directory = .ok found) :
    ∃ (names : List (List Char)) (lists : List (List String)),
      names.Nodup ∧ (∀ name ∈ names, IsName name) ∧
      storage.children directory =
        some (names.map fun name => directory.child (String.ofList name)) ∧
      names.mapM (walkName storage depth above directory) = .ok lists ∧ lists.flatten = found := by
  cases hchildren : storage.children directory with
  | none =>
      rw [walk_of_children_eq_none hchildren] at h
      cases h
  | some children =>
      obtain ⟨names, hnodup, hnames, rfl⟩ := hs.children_eq directory children hchildren
      rw [walk_succ hnames hchildren] at h
      obtain ⟨lists, hlists, hflatten⟩ := map_eq_ok_iff.mp h
      exact ⟨names, lists, hnodup, hnames, rfl, hlists, hflatten⟩

/-- Every file below a directory is listed, by its name from there. -/
theorem mem_of_walk (hs : storage.Lawful) (h : walk storage depth above directory = .ok found)
    (hne : names ≠ []) (hnames : ∀ name ∈ names, IsName name)
    (hfile : storage.isFile (directory.descend names) = true) : above ++ joined names ∈ found := by
  induction depth generalizing above directory found names with
  | zero => cases h
  | succ depth ih =>
      obtain ⟨listed, lists, -, hlisted, hchildren, hlists, rfl⟩ := of_walk hs h
      obtain ⟨name, rest, rfl⟩ := List.exists_cons_of_ne_nil hne
      obtain ⟨hname, hrest⟩ := List.forall_mem_cons.mp hnames
      have hchild : storage.Holds (directory.child (String.ofList name)) := by
        by_cases hnil : rest = []
        · subst hnil
          exact .inl hfile
        · exact .inr (hs.isDirectory_of_descend (Path.text_child_ne_empty _ hname) hnil hrest
            (.inl hfile))
      have hmem : name ∈ listed := by
        have hmem := hs.mem_children directory _ name hchildren hname hchild
        obtain ⟨other, hother, heq⟩ := List.mem_map.mp hmem
        rwa [← Path.child_injective (hlisted other hother) hname heq]
      suffices hlist : ∃ list, walkName storage depth above directory name = .ok list ∧
          above ++ joined (name :: rest) ∈ list by
        obtain ⟨list, hlist, hin⟩ := hlist
        exact List.mem_flatten.mpr ⟨list, (mem_of_mapM_eq_ok hlists).mpr ⟨name, hmem, hlist⟩, hin⟩
      obtain ⟨list, hlist⟩ := exists_mapM_eq_ok_iff.mp ⟨lists, hlists⟩ name hmem
      refine ⟨list, hlist, ?_⟩
      rw [walkName] at hlist
      by_cases hnil : rest = []
      · subst hnil
        have hfile : storage.isFile (directory.child (String.ofList name)) = true := hfile
        rw [if_neg (by simp [hs.isDirectory_of_isFile _ hfile])] at hlist
        obtain rfl := Except.ok.inj hlist
        simp [Path.joined_singleton]
      · have hdirectory := hs.isDirectory_of_descend (Path.text_child_ne_empty directory hname)
          hnil hrest (.inl hfile)
        rw [if_pos hdirectory] at hlist
        have hin := ih hlist hnil hrest hfile
        rwa [Path.joined_cons name hnil, ← String.append_assoc, ← String.append_assoc]

/-- Only what lies below the directory is listed, and it is no directory. -/
theorem of_mem_walk (hs : storage.Lawful) (h : walk storage depth above directory = .ok found)
    (hname : name ∈ found) : ∃ front last children, (∀ name ∈ front ++ [last], IsName name) ∧
      name = above ++ joined (front ++ [last]) ∧
      storage.children (directory.descend front) = some children ∧
      directory.descend (front ++ [last]) ∈ children ∧
      storage.isDirectory (directory.descend (front ++ [last])) = false := by
  induction depth generalizing above directory found with
  | zero => cases h
  | succ depth ih =>
      obtain ⟨listed, lists, -, hlisted, hchildren, hlists, rfl⟩ := of_walk hs h
      obtain ⟨list, hlist, hname⟩ := List.mem_flatten.mp hname
      obtain ⟨first, hfirst, hlist⟩ := (mem_of_mapM_eq_ok hlists).mp hlist
      have hisName := hlisted first hfirst
      rw [walkName] at hlist
      split at hlist
      · obtain ⟨front, last, children, hnames, rfl, hbelow, hmem, hnot⟩ := ih hlist hname
        refine ⟨first :: front, last, children, ?_, ?_, hbelow, hmem, hnot⟩
        · exact List.forall_mem_cons.mpr ⟨hisName, hnames⟩
        · rw [List.cons_append, Path.joined_cons first (by simp), ← String.append_assoc,
            ← String.append_assoc]
      · rename_i hnot
        obtain rfl := Except.ok.inj hlist
        refine ⟨[], first, _, by simpa using hisName, ?_, hchildren, ?_, by simpa using hnot⟩
        · simpa [Path.joined_singleton] using hname
        · exact List.mem_map.mpr ⟨first, hfirst, rfl⟩

/-- If all that is listed below a directory is there, the files below it are listed and nothing
else. -/
theorem mem_walk_iff_exists (hs : storage.Lawful)
    (hheld : ∀ front, (∀ name ∈ front, IsName name) → ∀ children,
      storage.children (directory.descend front) = some children →
        ∀ child ∈ children, storage.Holds child)
    (h : walk storage depth above directory = .ok found) :
    name ∈ found ↔ ∃ names, names ≠ [] ∧ (∀ name ∈ names, IsName name) ∧
      name = above ++ joined names ∧ storage.isFile (directory.descend names) = true := by
  constructor
  · intro hname
    obtain ⟨front, last, children, hnames, rfl, hchildren, hmem, hnot⟩ := of_mem_walk hs h hname
    have hholds := hheld front (fun name hname => hnames name (List.mem_append_left _ hname))
      children hchildren _ hmem
    exact ⟨front ++ [last], by simp, hnames, rfl, hholds.resolve_right (by simp [hnot])⟩
  · rintro ⟨names, hne, hnames, rfl, hfile⟩
    exact mem_of_walk hs h hne hnames hfile

theorem of_mem_walkName (hs : storage.Lawful) {first : List Char} (hfirst : IsName first)
    (h : walkName storage depth above directory first = .ok found) (hname : name ∈ found) :
    ∃ rest, (∀ name ∈ first :: rest, IsName name) ∧ name = above ++ joined (first :: rest) := by
  rw [walkName] at h
  split at h
  · obtain ⟨front, last, -, hnames, rfl, -⟩ := of_mem_walk hs h hname
    refine ⟨front ++ [last], List.forall_mem_cons.mpr ⟨hfirst, hnames⟩, ?_⟩
    rw [Path.joined_cons first (by simp), ← String.append_assoc, ← String.append_assoc]
  · obtain rfl := Except.ok.inj h
    exact ⟨[], by simpa using hfirst, by simpa [Path.joined_singleton] using hname⟩

/-- No file is listed twice. -/
theorem nodup_walk (hs : storage.Lawful) (h : walk storage depth above directory = .ok found) :
    found.Nodup := by
  induction depth generalizing above directory found with
  | zero => cases h
  | succ depth ih =>
      obtain ⟨listed, lists, hnodup, hlisted, -, hlists, rfl⟩ := of_walk hs h
      refine List.nodup_flatten.mpr ⟨fun list hlist => ?_, ?_⟩
      · obtain ⟨first, -, hlist⟩ := (mem_of_mapM_eq_ok hlists).mp hlist
        rw [walkName] at hlist
        split at hlist
        · exact ih hlist
        · obtain rfl := Except.ok.inj hlist
          exact List.nodup_singleton _
      · -- what is listed for one name starts with that name
        have hfirst : listed.Pairwise fun a b => IsName a ∧ IsName b ∧ a ≠ b :=
          hnodup.imp_of_mem fun ha hb hne => ⟨hlisted _ ha, hlisted _ hb, hne⟩
        refine pairwise_of_mapM_eq_ok ?_ hlists hfirst
        rintro a b as bs ⟨ha, hb, hne⟩ has hbs name hin hin'
        obtain ⟨rest, hrest, rfl⟩ := of_mem_walkName hs ha has hin
        obtain ⟨rest', hrest', heq⟩ := of_mem_walkName hs hb hbs hin'
        have hparts := Path.joined_injective hrest (by simp) hrest' (by simp)
          ((String.append_right_inj above).mp heq)
        exact hne (List.cons.inj hparts).1

/-- A walk ends if every directory below can be listed and they do not lie too deep. -/
theorem exists_walk (hs : storage.Lawful) (hdirectory : storage.isDirectory directory = true)
    (hbelow : ∀ names, (∀ name ∈ names, IsName name) →
      storage.isDirectory (directory.descend names) = true →
      names.length < depth ∧
        ∃ children, storage.children (directory.descend names) = some children) :
    ∃ found, walk storage depth above directory = .ok found := by
  induction depth generalizing above directory with
  | zero => exact absurd (hbelow [] (by simp) hdirectory).1 (by simp)
  | succ depth ih =>
      obtain ⟨-, children, hchildren⟩ := hbelow [] (by simp) hdirectory
      rw [Path.descend_nil] at hchildren
      obtain ⟨listed, -, hlisted, rfl⟩ := hs.children_eq _ _ hchildren
      suffices hall : ∃ lists, listed.mapM (walkName storage depth above directory) = .ok lists by
        obtain ⟨lists, hlists⟩ := hall
        exact ⟨lists.flatten, by rw [walk_succ hlisted hchildren, hlists]; rfl⟩
      refine exists_mapM_eq_ok_iff.mpr fun first hfirst => ?_
      have hname := hlisted first hfirst
      rw [walkName]
      split
      · rename_i hchild
        refine ih hchild fun names hnames hdescend => ?_
        obtain ⟨hlength, hlist⟩ := hbelow (first :: names)
          (List.forall_mem_cons.mpr ⟨hname, hnames⟩) hdescend
        exact ⟨Nat.lt_of_succ_lt_succ hlength, hlist⟩
      · exact ⟨_, rfl⟩

end ModuleSearch.Source
