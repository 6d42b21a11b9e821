import ModuleSearch.Descriptor.Basic
import ModuleSearch.NameList

/-!
# Drafts of descriptors

A draft collects what is declared about a module, in any order and with repetitions. `Draft.build`
checks every name and gives the descriptor; a module other than the base module that does not
require the base module gets that dependency, marked as mandated.
-/

namespace ModuleSearch

structure Draft where
  name : String
  versionText : Option String := none
  requires : NameMap Modifiers := .empty
  exports : NameSet := .empty
  provides : NameMap (List String) := .empty
  mainClass : Option String := none
  isAutomatic : Bool := false
  deriving DecidableEq, Repr

namespace Draft

/-- A draft of which only the name is known. -/
def named (name : String) : Draft := { name }

def withVersionText (d : Draft) (text : String) : Draft := { d with versionText := some text }

def withVersion (d : Draft) (version : Version) : Draft := d.withVersionText version.text

/-- Repeated dependencies on one module join their modifiers. -/
def require (d : Draft) (name : String) (modifiers : Modifiers) : Draft :=
  { d with requires := d.requires.upsert name fun old => (old.getD .none).union modifiers }

def exportPackage (d : Draft) (package : String) : Draft :=
  { d with exports := d.exports.add package }

/-- Providers are appended to those the service has; later repeats are dropped. -/
def provide (d : Draft) (service : String) (providers : List String) : Draft :=
  { d with
    provides := d.provides.upsert service fun old => NameList.union (old.getD []) providers }

def withMainClass (d : Draft) (mainClass : String) : Draft :=
  { d with mainClass := some mainClass }

def automatic (d : Draft) (isAutomatic : Bool) : Draft := { d with isAutomatic }

inductive Edit where
  | version (version : Version)
  | versionText (text : String)
  | require (name : String) (modifiers : List Modifier)
  | exportPackage (package : String)
  | provide (service : String) (providers : List String)
  | mainClass (mainClass : String)
  | automatic (isAutomatic : Bool)
  deriving DecidableEq, Repr

def apply (d : Draft) : Edit → Draft
  | .version version => d.withVersion version
  | .versionText text => d.withVersionText text
  | .require name modifiers => d.require name (.ofList modifiers)
  | .exportPackage package => d.exportPackage package
  | .provide service providers => d.provide service providers
  | .mainClass mainClass => d.withMainClass mainClass
  | .automatic isAutomatic => d.automatic isAutomatic

def ofEdits (name : String) (edits : List Edit) : Draft := edits.foldl apply (named name)

def moduleNameProblem? (name : String) : Option DescriptorError :=
  if Name.isModuleName name then none else some (.illegalModuleName name)

def nameProblem? (kind : NameKind) (name : String) : Option DescriptorError :=
  if Name.isQualifiedName name then none else some (.illegalName kind name)

def dependencyProblem? (owner dependency : String) : Option DescriptorError :=
  if dependency = owner then some (.requiresItself dependency) else moduleNameProblem? dependency

def serviceProblem? (service : String) (providers : List String) : Option DescriptorError :=
  (nameProblem? .serviceType service).or <|
    if providers.isEmpty then some (.noProviders service)
    else providers.findSome? (nameProblem? .providerClass)

/-- The first fault: of the name, then of the dependencies, the packages and the services, each in
ascending order, and last of the main class. -/
def problem? (d : Draft) : Option DescriptorError :=
  (moduleNameProblem? d.name).or <|
    (d.requires.keys.findSome? (dependencyProblem? d.name)).or <|
      (d.exports.toList.findSome? (nameProblem? .package)).or <|
        (d.provides.entries.findSome? fun e => serviceProblem? e.1 e.2).or <|
          d.mainClass.bind (nameProblem? .mainClass)

def requiresWithBase (d : Draft) : NameMap Modifiers :=
  if d.name = baseModule then d.requires
  else d.requires.insertIfNew baseModule { mandated := true }

/-- The descriptor, if the draft has no fault. -/
def build (d : Draft) : Except DescriptorError Descriptor :=
  match d.problem? with
  | some e => .error e
  | none => .ok {
      name := d.name
      versionText := d.versionText
      requires := d.requiresWithBase
      exports := d.exports
      provides := d.provides
      mainClass := d.mainClass
      isAutomatic := d.isAutomatic }

end Draft

end ModuleSearch
