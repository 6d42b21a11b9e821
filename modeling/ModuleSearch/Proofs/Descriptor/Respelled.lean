import Mathlib.Logic.Relation
import ModuleSearch.Proofs.Descriptor.Displayed

/-!
# Spellings of a document

What a document declares can be written in many ways: its members and the items of its lists may
change places, most of them may be repeated, and a dependency may be written as a name, as an object
or as several objects. A `Step` is one such change, and `decode_respelled` says that no number of
them is seen in the descriptor. The providers of a service keep their order.
-/

namespace ModuleSearch

section Option

variable {α β : Type}

theorem rel_of_exists_iff {R : α → α → Prop} {x y : Option α}
    (h : (∃ a, x = some a) ↔ ∃ b, y = some b) (hR : ∀ a b, x = some a → y = some b → R a b) :
    Option.Rel R x y := by
  cases x <;> cases y <;> simp_all

theorem rel_bind {R : α → α → Prop} {S : β → β → Prop} {x y : Option α} {g g' : α → Option β}
    (h : Option.Rel R x y) (hR : ∀ a b, R a b → Option.Rel S (g a) (g' b)) :
    Option.Rel S (x >>= g) (y >>= g') := by
  cases h with
  | none => exact .none
  | some h => exact hR _ _ h

theorem rel_refl {R : α → α → Prop} (h : ∀ a, R a a) (x : Option α) : Option.Rel R x x := by
  cases x <;> simp [h]

end Option

namespace Document

variable {key text : String} {name : Option Json} {v v' : Json}
  {items items' rest modifiers modifiers' : List Json}
  {members members' services services' : List (String × Json)} {r : Dependency} {d : Descriptor}

/-! ## Members -/

theorem lookup_eq_some_iff (h : occursOnce members key = true) :
    members.lookup key = some v ↔ (key, v) ∈ members := by
  induction members with
  | nil => simp
  | cons m rest ih =>
      obtain ⟨k, w⟩ := m
      rw [List.lookup_cons, List.mem_cons]
      by_cases hk : k = key
      · subst hk
        have hrest : ∀ m ∈ rest, m.1 ≠ k := by
          simpa [occursOnce, List.countP_cons, List.countP_eq_zero] using h
        have hnot : (k, v) ∉ rest := fun hmem => hrest _ hmem rfl
        simp [hnot, eq_comm]
      · have hrest : occursOnce rest key = true := by
          simpa [occursOnce, List.countP_cons, hk] using h
        rw [beq_false_of_ne (Ne.symm hk)]
        simp [ih hrest, Ne.symm hk]

theorem occursOnce_of_nodup (h : (members.map Prod.fst).Nodup) (key : String) :
    occursOnce members key = true := by
  have hcount := List.nodup_iff_count.mp h key
  rw [List.count, List.countP_map] at hcount
  exact decide_eq_true hcount

theorem lookup_eq_of_perm (h : members.Perm members') (honce : occursOnce members key = true) :
    members.lookup key = members'.lookup key := by
  have honce' : occursOnce members' key = true := by rwa [occursOnce, ← h.countP_eq]
  refine Option.ext fun v => ?_
  rw [lookup_eq_some_iff honce, lookup_eq_some_iff honce', h.mem_iff]

/-! ## Dependencies -/

/-- How a dependency can be written: as its name if it has no modifiers, or as an object. No other
member of the object counts. -/
inductive Writes : Option Json → List Json → Json → Prop
  | bare (text : String) : Writes (some (.string text)) [] (.string text)
  | unmodified {members : List (String × Json)} (hkeys : (members.map Prod.fst).Nodup)
      (h : members.lookup "modifiers" = none) : Writes (members.lookup "name") [] (.object members)
  | modified {members : List (String × Json)} {modifiers : List Json}
      (hkeys : (members.map Prod.fst).Nodup)
      (h : members.lookup "modifiers" = some (.array modifiers)) :
      Writes (members.lookup "name") modifiers (.object members)

theorem dependency?_object_eq_some_iff (hkeys : (members.map Prod.fst).Nodup) :
    dependency? (.object members) = some r ↔ members.lookup "name" = some (.string r.name) ∧
      (members.lookup "modifiers").elim (some []) Json.asStrings? = some r.modifiers := by
  have honce := occursOnce_of_nodup hkeys
  obtain ⟨text, given⟩ := r
  simp [dependency?, honce, Option.bind_eq_some_iff, Json.asString?_eq_some_iff]

namespace Writes

theorem dependency?_eq_some_iff (h : Writes name modifiers v) : dependency? v = some r ↔
    name = some (.string r.name) ∧ modifiers = r.modifiers.map .string := by
  cases h with
  | bare text =>
      obtain ⟨name, given⟩ := r
      simp [dependency?, eq_comm]
  | unmodified hkeys h =>
      rw [dependency?_object_eq_some_iff hkeys, h]
      simp [eq_comm]
  | modified hkeys h =>
      rw [dependency?_object_eq_some_iff hkeys, h, Option.elim_some]
      exact and_congr_right fun _ => Json.mapM_asString?_eq_some_iff

theorem exists_dependency?_iff (h : Writes name modifiers v) :
    (∃ r, dependency? v = some r) ↔
      (∃ text, name = some (.string text)) ∧ ∀ m ∈ modifiers, ∃ text, m = .string text := by
  simp only [h.dependency?_eq_some_iff]
  constructor
  · rintro ⟨r, hname, rfl⟩
    exact ⟨⟨r.name, hname⟩, by simp⟩
  · rintro ⟨⟨text, hname⟩, hmodifiers⟩
    simp only [← Json.asString?_eq_some_iff] at hmodifiers
    obtain ⟨texts, htexts⟩ := exists_mapM_eq_some_iff.mpr hmodifiers
    exact ⟨⟨text, texts⟩, hname, Json.mapM_asString?_eq_some_iff.mp htexts⟩

theorem demands_iff (h : Writes name modifiers v) (hv : ∃ r, dependency? v = some r)
    {s : String × Option String} : (∃ r, dependency? v = some r ∧ s ∈ r.demands) ↔
      name = some (.string s.1) ∧ ∀ text ∈ s.2, .string text ∈ modifiers := by
  obtain ⟨r, hr⟩ := hv
  obtain ⟨rfl, rfl⟩ := h.dependency?_eq_some_iff.mp hr
  simp only [hr, Option.some.injEq, exists_eq_left']
  obtain ⟨module, _ | text⟩ := s
  · simp [Dependency.mem_demands_none]
  · simp [Dependency.mem_demands_some]

end Writes

def SameDemands (requires requires' : List Dependency) : Prop :=
  ∀ s, s ∈ requires.flatMap Dependency.demands ↔ s ∈ requires'.flatMap Dependency.demands

/-- Whether the items of a list are dependencies. -/
def Readable (items : List Json) : Prop := ∀ v ∈ items, ∃ r, dependency? v = some r

/-- What one of the items of a list demands. -/
def Demand (items : List Json) (s : String × Option String) : Prop :=
  ∃ v ∈ items, ∃ r, dependency? v = some r ∧ s ∈ r.demands

theorem readable_cons :
    Readable (v :: rest) ↔ (∃ r, dependency? v = some r) ∧ Readable rest :=
  List.forall_mem_cons

theorem demand_cons {s : String × Option String} : Demand (v :: rest) s ↔
    (∃ r, dependency? v = some r ∧ s ∈ r.demands) ∨ Demand rest s := by
  simp [Demand]

/-- A change in a list of dependencies. The modifiers of one of them may be put in another order or
repeated, and they may be spread over two of the same name. -/
inductive DependenciesStep : List Json → List Json → Prop
  | reordered {items items' : List Json} (h : items.Perm items') : DependenciesStep items items'
  | repeated {v : Json} {items : List Json} (h : v ∈ items) : DependenciesStep items (v :: items)
  | rewritten {name : Option Json} {v v' : Json} {modifiers modifiers' rest : List Json}
      (h : Writes name modifiers v) (h' : Writes name modifiers' v')
      (hsame : ∀ m, m ∈ modifiers ↔ m ∈ modifiers') : DependenciesStep (v :: rest) (v' :: rest)
  | spread {name : Option Json} {v w w' : Json} {modifiers modifiers' rest : List Json}
      (h : Writes name (modifiers ++ modifiers') v) (hw : Writes name modifiers w)
      (hw' : Writes name modifiers' w') : DependenciesStep (v :: rest) (w :: w' :: rest)

namespace DependenciesStep

theorem readable_iff (h : DependenciesStep items items') : Readable items ↔ Readable items' := by
  cases h with
  | reordered h => simp only [Readable, h.mem_iff]
  | repeated h =>
      rw [readable_cons]
      exact ⟨fun hall => ⟨hall _ h, hall⟩, And.right⟩
  | rewritten h h' hsame =>
      simp only [readable_cons, h.exists_dependency?_iff, h'.exists_dependency?_iff, hsame]
  | spread h hw hw' =>
      simp only [readable_cons, h.exists_dependency?_iff, hw.exists_dependency?_iff,
        hw'.exists_dependency?_iff, List.forall_mem_append]
      tauto

theorem demand_iff (h : DependenciesStep items items') (hitems : Readable items)
    {s : String × Option String} : Demand items s ↔ Demand items' s := by
  have hitems' := h.readable_iff.mp hitems
  cases h with
  | reordered h => simp only [Demand, h.mem_iff]
  | repeated h =>
      rw [demand_cons]
      exact ⟨.inr, fun hs => hs.elim (fun hv => ⟨_, h, hv⟩) id⟩
  | rewritten h h' hsame =>
      obtain ⟨hv, -⟩ := readable_cons.mp hitems
      obtain ⟨hv', -⟩ := readable_cons.mp hitems'
      simp only [demand_cons, h.demands_iff hv, h'.demands_iff hv', hsame]
  | spread h hw hw' =>
      obtain ⟨hv, -⟩ := readable_cons.mp hitems
      obtain ⟨hread, hrest⟩ := readable_cons.mp hitems'
      obtain ⟨hread', -⟩ := readable_cons.mp hrest
      rw [demand_cons, demand_cons, demand_cons, h.demands_iff hv, hw.demands_iff hread,
        hw'.demands_iff hread', ← or_assoc, ← and_or_left]
      obtain ⟨module, _ | text⟩ := s <;> simp

theorem mem_demands_iff {requires : List Dependency} (h : items.mapM dependency? = some requires)
    {s : String × Option String} :
    s ∈ requires.flatMap Dependency.demands ↔ Demand items s := by
  simp only [List.mem_flatMap, mem_of_mapM_eq_some h, Demand]
  constructor
  · rintro ⟨r, ⟨v, hv, hr⟩, hs⟩
    exact ⟨v, hv, r, hr, hs⟩
  · rintro ⟨v, hv, r, hr, hs⟩
    exact ⟨r, ⟨v, hv, hr⟩, hs⟩

theorem rel_dependencies? (h : DependenciesStep items items') :
    Option.Rel SameDemands (dependencies? (.array items)) (dependencies? (.array items')) := by
  have hread : (∃ requires, items.mapM dependency? = some requires) ↔
      ∃ requires, items'.mapM dependency? = some requires := by
    rw [exists_mapM_eq_some_iff, exists_mapM_eq_some_iff]
    exact h.readable_iff
  refine rel_of_exists_iff hread fun requires requires' hrequires hrequires' s => ?_
  rw [mem_demands_iff hrequires, mem_demands_iff hrequires']
  exact h.demand_iff (exists_mapM_eq_some_iff.mp ⟨requires, hrequires⟩)

end DependenciesStep

/-! ## The other lists -/

def SameNames (names names' : List String) : Prop := ∀ name, name ∈ names ↔ name ∈ names'

theorem rel_exports (h : ∀ v, v ∈ items ↔ v ∈ items') :
    Option.Rel SameNames (Json.asStrings? (.array items)) (Json.asStrings? (.array items')) := by
  have hread : (∃ exports, items.mapM Json.asString? = some exports) ↔
      ∃ exports, items'.mapM Json.asString? = some exports := by
    simp only [exists_mapM_eq_some_iff, h]
  refine rel_of_exists_iff hread fun exports exports' hexports hexports' package => ?_
  rw [mem_of_mapM_eq_some hexports, mem_of_mapM_eq_some hexports']
  simp only [h]

theorem rel_provides (hkeys : (services.map Prod.fst).Nodup) (h : services.Perm services') :
    Option.Rel (· = ·) (Json.asStringLists? (.object services))
      (Json.asStringLists? (.object services')) := by
  have hkeys' : (services'.map Prod.fst).Nodup := (h.map Prod.fst).nodup_iff.mp hkeys
  have hread : (∃ provides, Json.asStringLists? (.object services) = some provides) ↔
      ∃ provides, Json.asStringLists? (.object services') = some provides := by
    simp only [Json.exists_asStringLists?_iff, h.mem_iff]
  refine rel_of_exists_iff hread fun provides provides' hprovides hprovides' => ?_
  refine NameMap.ext_get? fun service => Option.ext fun providers => ?_
  rw [Json.get?_of_asStringLists? hkeys hprovides, Json.get?_of_asStringLists? hkeys' hprovides',
    h.mem_iff]

/-! ## Documents -/

/-- A change in the members of a document. Of the lists in it only those of the providers of a
service stay as they are. -/
inductive Step : List (String × Json) → List (String × Json) → Prop
  | members {members members' : List (String × Json)} (h : members.Perm members') :
      Step members members'
  | requires {items items' : List Json} {rest : List (String × Json)}
      (h : DependenciesStep items items') :
      Step (("requires", .array items) :: rest) (("requires", .array items') :: rest)
  | exports {items items' : List Json} {rest : List (String × Json)}
      (h : ∀ v, v ∈ items ↔ v ∈ items') :
      Step (("exports", .array items) :: rest) (("exports", .array items') :: rest)
  | provides {services services' rest : List (String × Json)}
      (hkeys : (services.map Prod.fst).Nodup) (h : services.Perm services') :
      Step (("provides", .object services) :: rest) (("provides", .object services') :: rest)

/-- Documents that differ by any number of such changes. -/
def Respelled : List (String × Json) → List (String × Json) → Prop := Relation.EqvGen Step

theorem ofMembers?_eq_of_perm (h : members.Perm members') :
    ofMembers? members = ofMembers? members' := by
  have honce : occursOnce members = occursOnce members' := by
    funext key
    rw [occursOnce, occursOnce, h.countP_eq]
  rw [ofMembers?, ofMembers?, h.all_eq, ← honce]
  split
  · rename_i hallowed
    have hlookup : ∀ key ∈ fieldNames, members.lookup key = members'.lookup key := by
      rw [Bool.and_eq_true, List.all_eq_true, List.all_eq_true] at hallowed
      exact fun key hkey => lookup_eq_of_perm h (hallowed.2 key hkey)
    simp only [fieldNames, List.forall_mem_cons] at hlookup
    obtain ⟨hname, hversion, hrequires, hexports, hprovides, hmainClass, -⟩ := hlookup
    rw [hname, hversion, hrequires, hexports, hprovides, hmainClass]
  · rfl

theorem rel_field {α : Type} {R : α → α → Prop} {field : String} {default : Option α}
    {read : Json → Option α} (hrefl : ∀ a, R a a)
    (h : key = field → Option.Rel R (read v) (read v')) (rest : List (String × Json)) :
    Option.Rel R ((((key, v) :: rest).lookup field).elim default read)
      ((((key, v') :: rest).lookup field).elim default read) := by
  rw [List.lookup_cons, List.lookup_cons]
  by_cases hkey : key = field
  · subst hkey
    simpa using h rfl
  · rw [beq_false_of_ne (Ne.symm hkey)]
    exact rel_refl hrefl _

/-- Documents that differ in one list alone say the same if the lists do. -/
theorem rel_ofMembers?_cons {rest : List (String × Json)}
    (hkey : key ∉ ["name", "version", "main_class"])
    (hrequires : key = "requires" → Option.Rel SameDemands (dependencies? v) (dependencies? v'))
    (hexports : key = "exports" → Option.Rel SameNames v.asStrings? v'.asStrings?)
    (hprovides : key = "provides" → Option.Rel (· = ·) v.asStringLists? v'.asStringLists?) :
    Option.Rel Same (ofMembers? ((key, v) :: rest)) (ofMembers? ((key, v') :: rest)) := by
  simp only [List.mem_cons, List.not_mem_nil, or_false, not_or] at hkey
  obtain ⟨hname, hversion, hmainClass⟩ := hkey
  have honce : occursOnce ((key, v) :: rest) = occursOnce ((key, v') :: rest) := rfl
  have hlookup : ((key, v) :: rest).lookup "name" = ((key, v') :: rest).lookup "name" := by
    rw [List.lookup_cons, List.lookup_cons, beq_false_of_ne (Ne.symm hname)]
  rw [ofMembers?, ofMembers?, List.all_cons, List.all_cons, honce, hlookup]
  split
  · refine rel_bind (rel_refl Eq.refl _) fun name _ hname => ?_
    refine rel_bind (rel_field Eq.refl (absurd · hversion) rest) fun version _ hversion => ?_
    refine rel_bind (rel_field (fun _ _ => .rfl) hrequires rest) fun requires _ hrequires => ?_
    refine rel_bind (rel_field (fun _ _ => .rfl) hexports rest) fun exports _ hexports => ?_
    refine rel_bind (rel_field Eq.refl hprovides rest) fun provides _ hprovides => ?_
    refine rel_bind (rel_field Eq.refl (absurd · hmainClass) rest) fun mainClass _ hmainClass => ?_
    exact .some ⟨hname, hversion, hrequires, hexports, hprovides, hmainClass⟩
  · exact .none

theorem Step.rel_ofMembers? (h : Step members members') :
    Option.Rel Same (ofMembers? members) (ofMembers? members') := by
  cases h with
  | members h =>
      rw [ofMembers?_eq_of_perm h]
      exact rel_refl Same.refl _
  | requires h =>
      exact rel_ofMembers?_cons (by simp) (fun _ => h.rel_dependencies?) (by simp) (by simp)
  | exports h => exact rel_ofMembers?_cons (by simp) (by simp) (fun _ => rel_exports h) (by simp)
  | provides hkeys h =>
      exact rel_ofMembers?_cons (by simp) (by simp) (by simp) fun _ => rel_provides hkeys h

theorem Respelled.exists_iff (h : Respelled members members') :
    (∃ a, ofMembers? members = some a ∧ a.toDescriptor = .ok d) ↔
      ∃ a, ofMembers? members' = some a ∧ a.toDescriptor = .ok d := by
  induction h with
  | rel members members' h =>
      have hrel := h.rel_ofMembers?
      generalize ofMembers? members = x at hrel
      generalize ofMembers? members' = y at hrel
      cases hrel with
      | none => simp
      | some hsame => simp [hsame.toDescriptor_eq_ok_iff]
  | refl => rfl
  | symm _ _ _ ih => exact ih.symm
  | trans _ _ _ _ _ ih ih' => exact ih.trans ih'

theorem get?_provides_of_ofMembers? {a : Document} (h : ofMembers? members = some a)
    (hmem : ("provides", .object services) ∈ members) (hkeys : (services.map Prod.fst).Nodup)
    {service : String} {providers : List String} :
    a.provides.get? service = some providers ↔ (service, Json.strings providers) ∈ services := by
  rw [ofMembers?] at h
  split at h
  · rename_i hallowed
    rw [Bool.and_eq_true, List.all_eq_true, List.all_eq_true] at hallowed
    have hlookup := (lookup_eq_some_iff (hallowed.2 "provides" (by decide))).mpr hmem
    simp only [hlookup, Option.elim_some, Option.bind_eq_bind, Option.bind_eq_some_iff] at h
    obtain ⟨_, -, _, -, _, -, _, -, provides, hprovides, _, -, ha⟩ := h
    obtain rfl := Option.some.inj ha
    exact Json.get?_of_asStringLists? hkeys hprovides
  · cases h

end Document

namespace Descriptor

open Document (Respelled)

theorem decode_eq_ok_iff_ofMembers? {document : ByteArray} {members : List (String × Json)}
    {d : Descriptor} (h : Json.parse? document = some (.object members)) :
    decode document = .ok d ↔
      ∃ a, Document.ofMembers? members = some a ∧ a.toDescriptor = .ok d := by
  rw [decode_eq_ok_iff, h]
  rfl

/-- Documents that differ in spelling alone are decoded to the same descriptor or not at all. It is
not automatic, and its services have the providers that are listed, in their order. -/
theorem decode_respelled {document document' : ByteArray} {members members' : List (String × Json)}
    (h : Json.parse? document = some (.object members))
    (h' : Json.parse? document' = some (.object members')) (hsame : Respelled members members') :
    (∀ d, decode document = .ok d ↔ decode document' = .ok d) ∧
      ∀ d, decode document = .ok d → d.isAutomatic = false ∧
        ∀ services, ("provides", .object services) ∈ members → (services.map Prod.fst).Nodup →
          ∀ service found, d.provides.get? service = some found ↔
            ∃ providers, (service, Json.strings providers) ∈ services ∧
              providers.eraseDups = found := by
  refine ⟨fun d => ?_, fun d hd => ⟨isAutomatic_of_decode hd, ?_⟩⟩
  · rw [decode_eq_ok_iff_ofMembers? h, decode_eq_ok_iff_ofMembers? h', hsame.exists_iff]
  · intro services hservices hkeys service found
    obtain ⟨a, ha, hd⟩ := (decode_eq_ok_iff_ofMembers? h).mp hd
    rw [Document.get?_provides_of_toDescriptor hd, Option.map_eq_some_iff]
    simp only [Document.get?_provides_of_ofMembers? ha hservices hkeys]

theorem writes_requiresJson (name : String) (modifiers : Modifiers) :
    Document.Writes (some (.string name)) (modifiers.toList.map fun m => .string m.name)
      (requiresJson name modifiers) := by
  have hname : some (Json.string name) = List.lookup "name" [("name", Json.string name),
      ("modifiers", .strings (modifiers.toList.map Modifier.name))] := by
    simp
  rw [hname]
  refine .modified ?_ ?_ <;> simp [List.lookup_cons, Json.strings, Function.comp_def]

/-- A document with a service, and with these dependencies. -/
def sampleMembers (requires : List Json) : List (String × Json) :=
  [("requires", .array requires), ("name", .string "m"),
    ("provides", .object [("m.S", .strings ["m.Q", "m.P"])])]

def sampleRequires : List Json := [.string "b", requiresJson "c" (.ofList [.transitive, .static])]

/-- The modifiers are spread over two objects, and the name without modifiers is in one too. -/
def respelledRequires : List Json :=
  [requiresJson "c" (.ofList [.transitive]), requiresJson "c" (.ofList [.static]),
    requiresJson "b" .none]

theorem respelled_sample :
    Respelled (sampleMembers sampleRequires).reverse (sampleMembers respelledRequires) := by
  have hbare : Document.DependenciesStep sampleRequires
      [requiresJson "b" .none, requiresJson "c" (.ofList [.transitive, .static])] :=
    .rewritten (.bare "b") (writes_requiresJson "b" .none) fun _ => .rfl
  have hspread : Document.DependenciesStep
      [requiresJson "c" (.ofList [.transitive, .static]), requiresJson "b" .none]
      respelledRequires := by
    have hboth : Document.Writes (some (.string "c")) ([.string "transitive"] ++ [.string "static"])
        (requiresJson "c" (.ofList [.transitive, .static])) :=
      writes_requiresJson "c" (.ofList [.transitive, .static])
    exact .spread hboth (writes_requiresJson "c" (.ofList [.transitive]))
      (writes_requiresJson "c" (.ofList [.static]))
  exact .trans _ _ _ (.rel _ _ (.members (List.reverse_perm _)))
    (.trans _ _ _ (.rel _ _ (.requires hbare))
      (.trans _ _ _ (.rel _ _ (.requires (.reordered (.swap _ _ _))))
        (.rel _ _ (.requires hspread))))

/-- The bytes of an object with these members. -/
def written (members : List (String × Json)) : ByteArray := (Json.object members).pretty.toUTF8

theorem parse?_written {requires : List Json} {members : List (String × Json)}
    (hrequires : ∀ v ∈ requires, Json.Plain 2 v) (h : members.Perm (sampleMembers requires)) :
    Json.parse? (written members) = some (.object members) := by
  have hplain : ∀ m ∈ sampleMembers requires, Json.Plain 3 m.2 := by
    have hprovides : Json.Plain 3 (.object [("m.S", .strings ["m.Q", "m.P"])]) :=
      .object (by simp [Json.plain_strings])
    simp [sampleMembers, Json.Plain.array hrequires, Json.Plain.string, hprovides]
  exact Json.parse?_pretty (.object fun m hm => hplain m (h.mem_iff.mp hm)) (by decide)

theorem decode_respelled_sample :
    Json.parse? (written (sampleMembers sampleRequires).reverse) =
      some (.object (sampleMembers sampleRequires).reverse) ∧
    Json.parse? (written (sampleMembers respelledRequires)) =
      some (.object (sampleMembers respelledRequires)) ∧
    Respelled (sampleMembers sampleRequires).reverse (sampleMembers respelledRequires) ∧
    ∃ d, decode (written (sampleMembers sampleRequires).reverse) = .ok d ∧
      decode (written (sampleMembers respelledRequires)) = .ok d ∧ d.isAutomatic = false ∧
        d.provides.get? "m.S" = some ["m.Q", "m.P"] := by
  have hparse := parse?_written (by simp [sampleRequires, plain_requiresJson, Json.Plain.string])
    (List.reverse_perm (sampleMembers sampleRequires))
  have hparse' := parse?_written (by simp [respelledRequires, plain_requiresJson])
    (.refl (sampleMembers respelledRequires))
  have hdecode : ∃ d, decode (written (sampleMembers sampleRequires).reverse) = .ok d ∧
      d.name = "m" := by
    rw [decode, hparse, Option.bind_some]
    decide +kernel
  obtain ⟨d, hd, -⟩ := hdecode
  obtain ⟨hsame, hgives⟩ := decode_respelled hparse hparse' respelled_sample
  obtain ⟨hautomatic, hprovides⟩ := hgives d hd
  refine ⟨hparse, hparse', respelled_sample, d, hd, (hsame d).mp hd, hautomatic, ?_⟩
  refine (hprovides [("m.S", .strings ["m.Q", "m.P"])] ?_ ?_ "m.S" _).mpr
    ⟨["m.Q", "m.P"], by simp, by decide⟩
  · simp [sampleMembers]
  · simp

end Descriptor

end ModuleSearch
