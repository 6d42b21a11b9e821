import ModuleSearch.Name
import ModuleSearch.NameMap
import ModuleSearch.Version

/-!
# Module descriptors

The description of one module: its name and version, the modules it requires, the packages it
exports, the services it provides and its main class. Dependencies, packages and services are
held in ascending order of their names, so equal descriptors are the same value.
-/

namespace ModuleSearch

/-- The module on which every other module depends. -/
def baseModule : String := "java.base"

inductive Modifier where
  | transitive
  | static
  | synthetic
  | mandated
  deriving DecidableEq, Repr

namespace Modifier

def all : List Modifier := [transitive, static, synthetic, mandated]

def name : Modifier → String
  | transitive => "transitive"
  | static => "static"
  | synthetic => "synthetic"
  | mandated => "mandated"

def ofName? (name : String) : Option Modifier := all.find? fun m => m.name == name

end Modifier

structure Modifiers where
  transitive : Bool := false
  static : Bool := false
  synthetic : Bool := false
  mandated : Bool := false
  deriving DecidableEq, Repr

namespace Modifiers

def none : Modifiers := {}

def has (s : Modifiers) : Modifier → Bool
  | .transitive => s.transitive
  | .static => s.static
  | .synthetic => s.synthetic
  | .mandated => s.mandated

def add (s : Modifiers) : Modifier → Modifiers
  | .transitive => { s with transitive := true }
  | .static => { s with static := true }
  | .synthetic => { s with synthetic := true }
  | .mandated => { s with mandated := true }

def ofList (modifiers : List Modifier) : Modifiers := modifiers.foldl add none

def union (s t : Modifiers) : Modifiers where
  transitive := s.transitive || t.transitive
  static := s.static || t.static
  synthetic := s.synthetic || t.synthetic
  mandated := s.mandated || t.mandated

def toList (s : Modifiers) : List Modifier := Modifier.all.filter s.has

/-- Sets with the same members are equal. -/
theorem ext_has {s t : Modifiers} (h : ∀ m, s.has m = t.has m) : s = t := by
  obtain ⟨a, b, c, d⟩ := s
  obtain ⟨a', b', c', d'⟩ := t
  have h₁ := h .transitive
  have h₂ := h .static
  have h₃ := h .synthetic
  have h₄ := h .mandated
  simp only [has] at h₁ h₂ h₃ h₄
  simp [h₁, h₂, h₃, h₄]

@[simp] theorem has_union (s t : Modifiers) (m : Modifier) :
    (s.union t).has m = (s.has m || t.has m) := by
  cases m <;> rfl

@[simp] theorem has_add (s : Modifiers) (m n : Modifier) :
    (s.add m).has n = (s.has n || decide (n = m)) := by
  cases m <;> cases n <;> simp [add, has]

@[simp] theorem has_none (m : Modifier) : none.has m = false := by cases m <;> rfl

@[simp] theorem none_union (s : Modifiers) : none.union s = s := by
  apply ext_has
  simp

theorem has_foldl_add (s : Modifiers) (modifiers : List Modifier) (m : Modifier) :
    (modifiers.foldl add s).has m = (s.has m || decide (m ∈ modifiers)) := by
  induction modifiers generalizing s with
  | nil => simp
  | cons first rest ih => simp [ih, Bool.or_assoc]

@[simp] theorem has_ofList (modifiers : List Modifier) (m : Modifier) :
    (ofList modifiers).has m = decide (m ∈ modifiers) := by
  simp [ofList, has_foldl_add]

theorem ofList_append (a b : List Modifier) : ofList (a ++ b) = (ofList a).union (ofList b) := by
  apply ext_has
  simp

end Modifiers

structure Descriptor where
  name : String
  /-- The version as it was written, which need not be a version. -/
  versionText : Option String
  requires : NameMap Modifiers
  exports : NameSet
  /-- The provider classes of each service, in their order. -/
  provides : NameMap (List String)
  mainClass : Option String
  isAutomatic : Bool
  deriving DecidableEq, Repr

namespace Descriptor

/-- The version, if the text is one. -/
def version? (d : Descriptor) : Option Version := d.versionText.bind Version.parse?

/-- The name alone, or with the version text after `@`. -/
def nameAndVersion (d : Descriptor) : String :=
  match d.versionText with
  | some text => d.name ++ "@" ++ text
  | none => d.name

end Descriptor

/-- What a name in a descriptor stands for. -/
inductive NameKind where
  | package
  | serviceType
  | providerClass
  | mainClass
  deriving DecidableEq, Repr

namespace NameKind

def label : NameKind → String
  | package => "package"
  | serviceType => "service type"
  | providerClass => "provider class"
  | mainClass => "main class"

end NameKind

inductive DescriptorError where
  /-- The document is not JSON or not of the expected form. -/
  | malformed
  | illegalModuleName (name : String)
  | illegalName (kind : NameKind) (name : String)
  | requiresItself (name : String)
  | unknownModifier (name : String)
  | noProviders (service : String)
  deriving DecidableEq, Repr

namespace DescriptorError

def message : DescriptorError → String
  | malformed => "malformed descriptor"
  | illegalModuleName name => "'" ++ name ++ "' is not a legal module name"
  | illegalName kind name => "'" ++ name ++ "' is not a legal " ++ kind.label ++ " name"
  | requiresItself name => "module " ++ name ++ " cannot require itself"
  | unknownModifier name => "unknown requires modifier '" ++ name ++ "'"
  | noProviders service => "service " ++ service ++ " has no providers"

end DescriptorError

end ModuleSearch
