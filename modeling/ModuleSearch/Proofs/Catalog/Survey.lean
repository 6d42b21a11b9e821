import ModuleSearch.Proofs.ByteOrder
import ModuleSearch.Proofs.Catalog.Query

/-!
# Surveys

A survey is what a catalog knows when nothing more is left to do: the modules up to the first place
that cannot be read, and why it cannot. A query on a survey is answered without looking at files.
Surveys of two places are put one after the other by `followedBy`; `lookup_followedBy` and
`all_followedBy` say how such a survey answers.
-/

namespace ModuleSearch

/-- The modules of a view, each once and in ascending order of the bytes of their names. -/
structure IsListing (view : String → Option LocatedModule) (modules : List LocatedModule) :
    Prop where
  ascending : modules.Pairwise fun m n => utf8 m.name < utf8 n.name
  mem_iff : ∀ m, m ∈ modules ↔ view m.name = some m

namespace Modules

theorem toList_ascending_utf8 (found : Modules) :
    found.toList.Pairwise fun m n => utf8 m.name < utf8 n.name :=
  found.toList_ascending.imp utf8_lt

theorem isListing (found : Modules) : IsListing found.get? found.toList :=
  ⟨found.toList_ascending_utf8, fun _ => mem_toList⟩

/-- The modules of both; of two with one name that of the first counts. -/
def union (first second : Modules) : Modules := first.addAllNew second.toList

def Within (found other : Modules) : Prop :=
  ∀ name m, found.get? name = some m → other.get? name = some m

@[simp] theorem get?_union (first second : Modules) (name : String) :
    (first.union second).get? name = (first.get? name).or (second.get? name) := by
  rw [union, get?_addAllNew, find?_toList]

theorem mem_toList_union (first second : Modules) {m : LocatedModule} :
    m ∈ (first.union second).toList ↔
      m ∈ first.toList ∨ m ∈ second.toList ∧ ∀ n ∈ first.toList, n.name ≠ m.name := by
  simp only [mem_toList, get?_union]
  cases hfirst : first.get? m.name with
  | none =>
      have hnone : ∀ n : LocatedModule, first.get? n.name = some n → n.name ≠ m.name := by
        intro n hn hname
        rw [hname, hfirst] at hn
        cases hn
      simpa using fun _ => hnone
  | some n =>
      have hname : n.name = m.name := name_of_get? hfirst
      have hget : first.get? n.name = some n := hname ▸ hfirst
      simp only [Option.some_or]
      constructor
      · exact .inl
      · rintro (h | ⟨-, hne⟩)
        · exact h
        · exact absurd hname (hne n hget)

@[simp] theorem union_empty (found : Modules) : found.union .empty = found := by
  apply ext_get?
  simp

@[simp] theorem empty_union (found : Modules) : Modules.empty.union found = found := by
  apply ext_get?
  simp

theorem union_assoc (u v w : Modules) : (u.union v).union w = u.union (v.union w) := by
  apply ext_get?
  simp [Option.or_assoc]

theorem union_addAllNew (first found : Modules) (modules : List LocatedModule) :
    (first.union found).addAllNew modules = first.union (found.addAllNew modules) := by
  apply ext_get?
  intro name
  simp only [get?_addAllNew, get?_union, Option.or_assoc]

theorem Within.refl (found : Modules) : found.Within found := fun _ _ h => h

theorem Within.trans {u v w : Modules} (huv : u.Within v) (hvw : v.Within w) : u.Within w :=
  fun name m h => hvw name m (huv name m h)

theorem within_addAllNew (found : Modules) (modules : List LocatedModule) :
    found.Within (found.addAllNew modules) := by
  intro name m h
  rw [get?_addAllNew, h]
  rfl

end Modules

structure Survey where
  modules : Modules
  failure : Option SearchError

namespace Survey

def nothing : Survey := ⟨.empty, none⟩

def unusable : Survey := ⟨.empty, some .unusable⟩

def lookup (v : Survey) (name : String) : Except SearchError (Option LocatedModule) :=
  match v.modules.get? name with
  | some m => .ok (some m)
  | none =>
    match v.failure with
    | some e => .error e
    | none => .ok none

def all (v : Survey) : Except SearchError Modules :=
  match v.failure with
  | some e => .error e
  | none => .ok v.modules

def answer (v : Survey) : Query → Reply
  | .find name => (v.lookup name).map .one
  | .findAll => v.all.map fun found => .all found.toList

theorem answer_unusable (q : Query) : unusable.answer q = .error .unusable := by
  cases q <;> rfl

/-- The second survey counts only if nothing stood in the way of the first. -/
def followedBy (v w : Survey) : Survey :=
  match v.failure with
  | some _ => v
  | none => ⟨v.modules.union w.modules, w.failure⟩

theorem followedBy_of_failure {v : Survey} {e : SearchError} (h : v.failure = some e)
    (w : Survey) : v.followedBy w = v := by
  rw [followedBy, h]

theorem followedBy_of_success {v : Survey} (h : v.failure = none) (w : Survey) :
    v.followedBy w = ⟨v.modules.union w.modules, w.failure⟩ := by
  rw [followedBy, h]

theorem followedBy_nothing (v : Survey) : v.followedBy nothing = v := by
  cases hf : v.failure with
  | some e => exact followedBy_of_failure hf nothing
  | none =>
      rw [followedBy_of_success hf, nothing, Modules.union_empty, ← hf]

theorem nothing_followedBy (v : Survey) : nothing.followedBy v = v := by
  rw [followedBy_of_success rfl, nothing, Modules.empty_union]

theorem followedBy_assoc (u v w : Survey) :
    (u.followedBy v).followedBy w = u.followedBy (v.followedBy w) := by
  cases hu : u.failure with
  | some e => rw [followedBy_of_failure hu, followedBy_of_failure hu, followedBy_of_failure hu]
  | none =>
      rw [followedBy_of_success hu v, followedBy_of_success hu (v.followedBy w)]
      cases hv : v.failure with
      | some e => rw [followedBy_of_failure rfl, followedBy_of_failure hv, hv]
      | none => rw [followedBy_of_success rfl, followedBy_of_success hv, Modules.union_assoc]

theorem lookup_of_found {v : Survey} {name : String} {m : LocatedModule}
    (h : v.modules.get? name = some m) : v.lookup name = .ok (some m) := by
  rw [lookup, h]

theorem lookup_of_failure {v : Survey} {name : String} {e : SearchError}
    (hmissing : v.modules.get? name = none) (hfailure : v.failure = some e) :
    v.lookup name = .error e := by
  rw [lookup, hmissing, hfailure]

theorem lookup_of_success {v : Survey} (h : v.failure = none) (name : String) :
    v.lookup name = .ok (v.modules.get? name) := by
  cases hm : v.modules.get? name with
  | some m => exact lookup_of_found hm
  | none => rw [lookup, hm, h]

theorem lookup_cases (v : Survey) (name : String) :
    (∃ m, v.modules.get? name = some m ∧ v.lookup name = .ok (some m)) ∨
      (v.modules.get? name = none ∧ v.failure = none ∧ v.lookup name = .ok none) ∨
      ∃ e, v.modules.get? name = none ∧ v.failure = some e ∧ v.lookup name = .error e := by
  cases hm : v.modules.get? name with
  | some m => exact .inl ⟨m, rfl, lookup_of_found hm⟩
  | none =>
      cases hf : v.failure with
      | none => exact .inr (.inl ⟨rfl, rfl, by rw [lookup_of_success hf, hm]⟩)
      | some e => exact .inr (.inr ⟨e, rfl, rfl, lookup_of_failure hm hf⟩)

theorem failure_of_lookup_none {v : Survey} {name : String} (h : v.lookup name = .ok none) :
    v.failure = none := by
  rcases v.lookup_cases name with ⟨m, -, hm⟩ | ⟨-, hf, -⟩ | ⟨e, -, -, he⟩
  · simp [hm] at h
  · exact hf
  · simp [he] at h

theorem failure_of_lookup_error {v : Survey} {name : String} {e : SearchError}
    (h : v.lookup name = .error e) : v.failure = some e := by
  rcases v.lookup_cases name with ⟨m, -, hm⟩ | ⟨-, -, hn⟩ | ⟨e', -, hf, he⟩
  · simp [hm] at h
  · simp [hn] at h
  · rw [hf, Except.error.inj (he.symm.trans h)]

theorem name_of_lookup {v : Survey} {name : String} {m : LocatedModule}
    (h : v.lookup name = .ok (some m)) : m.name = name := by
  rcases v.lookup_cases name with ⟨n, hget, hn⟩ | ⟨-, -, hn⟩ | ⟨e, -, -, he⟩
  · obtain rfl : n = m := by simpa [hn] using h
    exact Modules.name_of_get? hget
  · simp [hn] at h
  · simp [he] at h

theorem all_eq_ok_iff {v : Survey} {found : Modules} :
    v.all = .ok found ↔ v.failure = none ∧ v.modules = found := by
  cases hf : v.failure <;> simp [all, hf]

theorem lookup_followedBy (v w : Survey) (name : String) :
    (v.followedBy w).lookup name =
      match v.lookup name with
      | .ok none => w.lookup name
      | answer => answer := by
  cases hf : v.failure with
  | some e =>
      rw [followedBy_of_failure hf]
      rcases v.lookup_cases name with ⟨m, -, hm⟩ | ⟨-, hnone, -⟩ | ⟨e', -, -, he⟩
      · rw [hm]
      · simp [hf] at hnone
      · rw [he]
  | none =>
      rw [followedBy_of_success hf, lookup_of_success hf, lookup, lookup, Modules.get?_union]
      cases v.modules.get? name <;> rfl

theorem all_followedBy (v w : Survey) :
    (v.followedBy w).all =
      match v.all with
      | .ok found => w.all.map found.union
      | .error e => .error e := by
  cases hf : v.failure with
  | some e => simp [followedBy_of_failure hf, all, hf]
  | none =>
      rw [followedBy_of_success hf]
      cases hw : w.failure <;> simp [all, hf, hw, Except.map]

end Survey

end ModuleSearch
