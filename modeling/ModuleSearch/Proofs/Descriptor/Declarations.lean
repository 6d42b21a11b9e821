import Mathlib.Data.List.Induction
import ModuleSearch.Descriptor.Draft

/-!
# What the edits of a draft declare

A draft is made by one edit after the other. Each of its fields can be read off the list of the
edits: the last word counts for the version, the main class and the marker, and the lists that are
given for one dependency or for one service are put one after the other.
-/

namespace ModuleSearch

theorem NameList.distinct_eq_eraseDups (names : List String) :
    NameList.distinct names = names.eraseDups := by
  induction names using List.reverseRecOn with
  | nil => rfl
  | append_singleton front last ih =>
      rw [NameList.distinct_append, ih, List.eraseDups_append]
      change NameList.appendNew front.eraseDups last = _
      by_cases hlast : last ∈ front <;>
        simp [NameList.appendNew, List.removeAll, hlast, List.eraseDups_cons]

theorem NameList.eraseDups_eq_self {names : List String} (h : names.Nodup) :
    names.eraseDups = names := by
  induction names with
  | nil => rfl
  | cons name rest ih =>
      obtain ⟨hname, hrest⟩ := List.nodup_cons.mp h
      have hfilter : rest.filter (fun other => !other == name) = rest :=
        List.filter_eq_self.mpr fun other hother => by
          simpa using fun heq : other = name => hname (heq ▸ hother)
      rw [List.eraseDups_cons, hfilter, ih hrest]

theorem NameList.eraseDups_filter (p : String → Bool) (names : List String) :
    (names.filter p).eraseDups = names.eraseDups.filter p := by
  induction names using List.reverseRecOn with
  | nil => rfl
  | append_singleton front last ih =>
      rw [List.filter_append, List.eraseDups_append, List.eraseDups_append, List.filter_append, ih]
      by_cases hp : p last = true <;> by_cases hlast : last ∈ front <;>
        simp [List.removeAll, hp, hlast, List.eraseDups_cons]

/-- A list of names that is given once more adds nothing. -/
theorem NameList.eraseDups_flatten {names : List String} {lists : List (List String)}
    (h : names.Nodup) (hsome : names ∈ lists) (hall : ∀ given ∈ lists, given = names) :
    lists.flatten.eraseDups = names := by
  cases lists with
  | nil => simp at hsome
  | cons first rest =>
      obtain ⟨rfl, hrest⟩ := List.forall_mem_cons.mp hall
      have hremove : rest.flatten.removeAll first = [] := by
        refine List.filter_eq_nil_iff.mpr fun name hname => ?_
        obtain ⟨given, hgiven, hname⟩ := List.mem_flatten.mp hname
        simpa [hrest given hgiven] using hname
      rw [List.flatten_cons, List.eraseDups_append, hremove, List.eraseDups_nil, List.append_nil,
        eraseDups_eq_self h]

namespace Draft

namespace Edit

def versionText? : Edit → Option String
  | .version v => some v.text
  | .versionText text => some text
  | _ => none

/-- The version that an edit sets, nothing if its text is no version. -/
def version? : Edit → Option (Option Version)
  | .version v => some (some v)
  | .versionText text => some (Version.parse? text)
  | _ => none

def mainClass? : Edit → Option String
  | .mainClass c => some c
  | _ => none

def automatic? : Edit → Option Bool
  | .automatic isAutomatic => some isAutomatic
  | _ => none

def modifiersFor? (dependency : String) : Edit → Option (List Modifier)
  | .require name modifiers => if name = dependency then some modifiers else none
  | _ => none

def providersFor? (service : String) : Edit → Option (List String)
  | .provide name providers => if name = service then some providers else none
  | _ => none

theorem modifiersFor?_eq_some {dependency : String} {modifiers : List Modifier} {e : Edit} :
    e.modifiersFor? dependency = some modifiers ↔ e = .require dependency modifiers := by
  cases e <;> simp [modifiersFor?]

theorem providersFor?_eq_some {service : String} {providers : List String} {e : Edit} :
    e.providersFor? service = some providers ↔ e = .provide service providers := by
  cases e <;> simp [providersFor?]

end Edit

variable {α : Type} {name : String} {edits : List Edit}

/-- What the last edit of a kind says. -/
def lastOf (f : Edit → Option α) (edits : List Edit) : Option α := (edits.filterMap f).getLast?

/-- The lists of all edits of a kind, one after the other; nothing if there is no such edit. -/
def allOf (f : Edit → Option (List α)) (edits : List Edit) : Option (List α) :=
  match edits.filterMap f with
  | [] => none
  | lists => some lists.flatten

theorem lastOf_concat (f : Edit → Option α) (edits : List Edit) (e : Edit) :
    lastOf f (edits ++ [e]) = (f e).or (lastOf f edits) := by
  cases h : f e <;> simp [lastOf, h]

theorem lastOf_append (f : Edit → Option α) (edits edits' : List Edit) :
    lastOf f (edits ++ edits') = (lastOf f edits').or (lastOf f edits) := by
  rw [lastOf, List.filterMap_append, List.getLast?_append, lastOf, lastOf]

theorem lastOf_map_eq_none {β : Type} {f : Edit → Option α} {g : β → Edit}
    (h : ∀ b, f (g b) = none) (items : List β) : lastOf f (items.map g) = none := by
  have hnone : (items.map g).filterMap f = [] := by simp [h]
  rw [lastOf, hnone, List.getLast?_nil]

theorem lastOf_map_toList {β : Type} (f : Edit → Option α) (g : β → Edit) (item : Option β) :
    lastOf f (item.toList.map g) = item.bind fun b => f (g b) := by
  cases item with
  | none => rfl
  | some b => cases h : f (g b) <;> simp [lastOf, h]

theorem allOf_concat (f : Edit → Option (List α)) (edits : List Edit) (e : Edit) :
    allOf f (edits ++ [e]) =
      match f e with
      | none => allOf f edits
      | some items => some ((allOf f edits).getD [] ++ items) := by
  cases h : f e with
  | none => simp [allOf, h]
  | some items => cases h' : edits.filterMap f <;> simp [allOf, h, h']

theorem ofEdits_concat (name : String) (edits : List Edit) (e : Edit) :
    ofEdits name (edits ++ [e]) = (ofEdits name edits).apply e := List.foldl_append

theorem name_ofEdits (name : String) (edits : List Edit) : (ofEdits name edits).name = name := by
  -- The edits are applied from the first on, so the last one is split off, here and below.
  induction edits using List.reverseRecOn with
  | nil => rfl
  | append_singleton edits e ih =>
      rw [ofEdits_concat]
      cases e <;> exact ih

theorem versionText_ofEdits (name : String) (edits : List Edit) :
    (ofEdits name edits).versionText = lastOf Edit.versionText? edits := by
  induction edits using List.reverseRecOn with
  | nil => rfl
  | append_singleton edits e ih =>
      rw [ofEdits_concat, lastOf_concat, ← ih]
      cases e <;> rfl

theorem mainClass_ofEdits (name : String) (edits : List Edit) :
    (ofEdits name edits).mainClass = lastOf Edit.mainClass? edits := by
  induction edits using List.reverseRecOn with
  | nil => rfl
  | append_singleton edits e ih =>
      rw [ofEdits_concat, lastOf_concat, ← ih]
      cases e <;> rfl

theorem isAutomatic_ofEdits (name : String) (edits : List Edit) :
    (ofEdits name edits).isAutomatic = (lastOf Edit.automatic? edits).getD false := by
  induction edits using List.reverseRecOn with
  | nil => rfl
  | append_singleton edits e ih =>
      rw [ofEdits_concat, lastOf_concat]
      cases e with
      | automatic isAutomatic => rfl
      | _ => exact ih

theorem mem_exports_ofEdits {package : String} :
    package ∈ (ofEdits name edits).exports.toList ↔ .exportPackage package ∈ edits := by
  induction edits using List.reverseRecOn with
  | nil => simp [ofEdits, named, NameSet.toList_empty]
  | append_singleton edits e ih =>
      rw [ofEdits_concat, List.mem_append, ← ih, List.mem_singleton]
      cases e with
      | exportPackage other =>
          rw [Edit.exportPackage.injEq]
          exact NameSet.mem_add
      | _ => simp [apply, withVersion, withVersionText, require, provide, withMainClass, automatic]

theorem get?_requires_ofEdits (name : String) (edits : List Edit) (dependency : String) :
    (ofEdits name edits).requires.get? dependency =
      (allOf (Edit.modifiersFor? dependency) edits).map .ofList := by
  induction edits using List.reverseRecOn with
  | nil => rfl
  | append_singleton edits e ih =>
      rw [ofEdits_concat, allOf_concat]
      cases e with
      | require other modifiers =>
          rw [apply, require, NameMap.get?_upsert, Edit.modifiersFor?]
          by_cases h : dependency = other
          · subst h
            rw [ih]
            cases allOf (Edit.modifiersFor? dependency) edits with
            | none => simp
            | some before => simp [Modifiers.ofList_append]
          · simpa [h, Ne.symm h] using ih
      | _ => exact ih

theorem get?_provides_ofEdits (name : String) (edits : List Edit) (service : String) :
    (ofEdits name edits).provides.get? service =
      (allOf (Edit.providersFor? service) edits).map List.eraseDups := by
  induction edits using List.reverseRecOn with
  | nil => rfl
  | append_singleton edits e ih =>
      rw [ofEdits_concat, allOf_concat]
      cases e with
      | provide other providers =>
          rw [apply, provide, NameMap.get?_upsert, Edit.providersFor?]
          by_cases h : service = other
          · subst h
            have hunion : ∀ before : List String,
                NameList.union before.eraseDups providers = (before ++ providers).eraseDups := by
              intro before
              rw [← NameList.distinct_eq_eraseDups, ← NameList.distinct_eq_eraseDups,
                NameList.distinct_append]
            rw [ih]
            cases allOf (Edit.providersFor? service) edits with
            | none => simpa using hunion []
            | some before => simpa using hunion before
          · simpa [h, Ne.symm h] using ih
      | _ => exact ih

end Draft

end ModuleSearch
