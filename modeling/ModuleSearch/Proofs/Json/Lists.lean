import Mathlib.Data.List.Nodup
import ModuleSearch.Json.Basic
import ModuleSearch.Proofs.NameMap

/-!
# Lists in JSON values

What is read from an array of strings is what the array was written from (`asStrings?_eq_some_iff`),
and what is read from an object with such arrays is found in it by name (`get?_of_asStringLists?`).
-/

namespace ModuleSearch

section MapM

variable {α β : Type} {f : α → Option β} {xs : List α} {ys : List β}

theorem mapM_eq_some_iff : xs.mapM f = some ys ↔ xs.map f = ys.map some := by
  induction xs generalizing ys with
  | nil => cases ys <;> simp
  | cons x rest ih => cases ys <;> simp [← ih, Option.bind_eq_some_iff]

theorem exists_mapM_eq_some_iff : (∃ ys, xs.mapM f = some ys) ↔ ∀ x ∈ xs, ∃ y, f x = some y := by
  induction xs with
  | nil => simp
  | cons x rest ih =>
      rw [List.forall_mem_cons, ← ih, List.mapM_cons]
      cases f x <;> cases rest.mapM f <;> simp

theorem mem_of_mapM_eq_some (h : xs.mapM f = some ys) {y : β} :
    y ∈ ys ↔ ∃ x ∈ xs, f x = some y := by
  have hsome : y ∈ ys ↔ some y ∈ ys.map some := by simp
  rw [hsome, ← mapM_eq_some_iff.mp h, List.mem_map]

theorem mapM_map_some {γ : Type} {f : α → β} {g : β → Option γ} {k : α → γ}
    (h : ∀ a, g (f a) = some (k a)) (items : List α) :
    (items.map f).mapM g = some (items.map k) :=
  mapM_eq_some_iff.mpr (by simp [h])

end MapM

namespace Json

variable {v : Json} {items : List Json} {services : List (String × Json)} {text : String}
  {texts : List String}

theorem asString?_eq_some_iff : v.asString? = some text ↔ v = string text := by
  cases v <;> simp [asString?]

theorem mapM_asString?_eq_some_iff :
    items.mapM asString? = some texts ↔ items = texts.map string := by
  rw [mapM_eq_some_iff]
  induction items generalizing texts with
  | nil => cases texts <;> simp
  | cons v rest ih => cases texts <;> simp [ih, asString?_eq_some_iff]

theorem asStrings?_eq_some_iff : v.asStrings? = some texts ↔ v = strings texts := by
  cases v with
  | array items =>
      rw [strings, array.injEq]
      exact mapM_asString?_eq_some_iff
  | _ => simp [asStrings?, asItems?, strings]

theorem asStrings?_strings (texts : List String) : (strings texts).asStrings? = some texts :=
  asStrings?_eq_some_iff.mpr rfl

theorem strings_injective : Function.Injective strings := by
  intro texts texts' h
  exact Option.some.inj ((asStrings?_strings texts).symm.trans (asStrings?_eq_some_iff.mpr h))

theorem stringListMember?_eq_some_iff {m : String × Json} {e : String × List String} :
    stringListMember? m = some e ↔ (e.1, strings e.2) = m := by
  obtain ⟨service, v⟩ := m
  obtain ⟨service', providers⟩ := e
  simp only [stringListMember?, Option.map_eq_some_iff, asStrings?_eq_some_iff, Prod.mk.injEq]
  constructor
  · rintro ⟨_, rfl, rfl, rfl⟩
    exact ⟨rfl, rfl⟩
  · rintro ⟨rfl, rfl⟩
    exact ⟨providers, rfl, rfl, rfl⟩

theorem exists_asStringLists?_iff :
    (∃ lists, asStringLists? (object services) = some lists) ↔
      ∀ m ∈ services, ∃ e, stringListMember? m = some e := by
  rw [← exists_mapM_eq_some_iff, asStringLists?]
  cases services.mapM stringListMember? <;> simp

/-- Members with different keys are read as they are listed. -/
theorem get?_of_asStringLists? {lists : NameMap (List String)}
    (hkeys : (services.map Prod.fst).Nodup)
    (h : asStringLists? (object services) = some lists) {service : String}
    {providers : List String} :
    lists.get? service = some providers ↔ (service, strings providers) ∈ services := by
  obtain ⟨entries, hentries, rfl⟩ := Option.map_eq_some_iff.mp h
  have hmem : ∀ e, e ∈ entries ↔ (e.1, strings e.2) ∈ services := by
    intro e
    simp only [mem_of_mapM_eq_some hentries, stringListMember?_eq_some_iff, exists_eq_right']
  rw [NameMap.get?_ofList_eq_some_iff, hmem]
  intro a ha b hb hname
  have hmember := List.inj_on_of_nodup_map hkeys ((hmem a).mp ha) ((hmem b).mp hb) hname
  exact Prod.ext hname (strings_injective (Prod.mk.inj hmember).2)

end Json

end ModuleSearch
