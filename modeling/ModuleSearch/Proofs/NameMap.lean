import Mathlib.Data.List.Induction
import ModuleSearch.NameMap

/-!
# Maps and lists of their entries

Making a map of a list of entries, and reading a map as a list: `get?_ofList_eq_some_iff` and
`ofList_entries`.
-/

namespace ModuleSearch.NameMap

variable {α : Type} {name : String}

/-- An entry of a list is found if no other entry of its name has another value. -/
theorem get?_ofList_eq_some_iff {l : List (String × α)}
    (h : ∀ a ∈ l, ∀ b ∈ l, a.1 = b.1 → a = b) {value : α} :
    (ofList l).get? name = some value ↔ (name, value) ∈ l := by
  induction l using List.reverseRecOn with
  | nil => simp [ofList]
  | append_singleton front e ih =>
      have hfront := ih fun a ha b hb =>
        h a (List.mem_append_left _ ha) b (List.mem_append_left _ hb)
      rw [ofList, List.foldl_append, ← ofList, List.foldl_cons, List.foldl_nil, get?_insert,
        List.mem_append, List.mem_singleton]
      split
      · rename_i hname
        subst hname
        constructor
        · intro hvalue
          exact .inr (by rw [← Option.some.inj hvalue])
        · rintro (hmem | heq)
          · have heq := h _ (List.mem_append_left _ hmem) e (by simp) rfl
            rw [← heq]
          · rw [← heq]
      · rename_i hname
        rw [hfront]
        constructor
        · exact .inl
        · rintro (hmem | heq)
          · exact hmem
          · exact absurd (by rw [← heq]) hname

theorem ofList_entries (m : NameMap α) : ofList m.entries = m := by
  refine ext_get? fun name => Option.ext fun value => ?_
  rw [get?_ofList_eq_some_iff, get?_eq_some_iff]
  intro a ha b hb hname
  have ha' := get?_eq_some_iff.mpr ha
  rw [hname, get?_eq_some_iff.mpr hb] at ha'
  exact Prod.ext hname (Option.some.inj ha').symm

theorem nodup_keys (m : NameMap α) : m.keys.Nodup := by
  refine m.keys_ascending.imp ?_
  rintro name _ hlt rfl
  exact String.lt_irrefl name hlt

end ModuleSearch.NameMap
