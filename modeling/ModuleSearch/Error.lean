import ModuleSearch.DerivedName
import ModuleSearch.Descriptor.Document
import ModuleSearch.Manifest
import ModuleSearch.Path
import ModuleSearch.ServiceFile

/-!
# Errors of a search

Every error is a cause with what it concerns; `SearchError.message` words it.
-/

namespace ModuleSearch

inductive DerivationFault where
  | noName (fileName : String)
  | illegalPackage (entry package : String)
  | illegalService (entry service : String)
  | serviceFile (entry : String) (cause : ServiceFileError)
  | manifest (cause : ManifestError)
  | descriptor (cause : DescriptorError)
  deriving DecidableEq, Repr

namespace DerivationFault

def message : DerivationFault → String
  | noName fileName => "no module name can be derived from '" ++ fileName ++ "'"
  | illegalPackage entry package => entry ++ ": '" ++ package ++ "' is not a legal package name"
  | illegalService entry service =>
    entry ++ ": '" ++ service ++ "' is not a legal service type name"
  | serviceFile entry cause => entry ++ ": " ++ cause.message
  | manifest cause => Manifest.fileName ++ ": " ++ cause.message
  | descriptor cause => cause.message

end DerivationFault

inductive FormatFault where
  | noJmodMagic
  | unrecognized
  /-- The entry at which the descriptor should be. -/
  | noDescriptor (entry : String)
  /-- An image entry whose descriptor names another module. -/
  | otherModule (entry name : String)
  deriving DecidableEq, Repr

namespace FormatFault

def message : FormatFault → String
  | noJmodMagic => "not a JMOD file (bad magic number)"
  | unrecognized => "module format not recognized"
  | noDescriptor entry => entry ++ " not found"
  | otherModule entry name => entry ++ " describes module " ++ name

end FormatFault

inductive SearchError where
  | unreadable (path : Path)
  | badArchive (path : Path)
  | malformed (path : Path) (fault : FormatFault)
  | badDescriptor (path : Path) (cause : DescriptorError)
  | notDerivable (path : Path) (fault : DerivationFault)
  /-- A class outside every package. -/
  | unnamedPackage (path : Path) (entry : String)
  | duplicateModule (name : String) (directory first second : Path)
  /-- A query after one that failed. -/
  | unusable
  | accessDenied (path : Path)
  | noInstallation (home : Path)
  deriving DecidableEq, Repr

namespace SearchError

inductive Kind where
  | discovery
  | accessDenied
  | configuration
  deriving DecidableEq, Repr

def kind : SearchError → Kind
  | accessDenied _ => .accessDenied
  | noInstallation _ => .configuration
  | _ => .discovery

def message : SearchError → String
  | unreadable path => "I/O error reading " ++ path.text
  | badArchive path => "error reading archive " ++ path.text
  | malformed path fault => "malformed module " ++ path.text ++ ": " ++ fault.message
  | badDescriptor path _ => "invalid module descriptor in " ++ path.text
  | notDerivable path fault =>
    "unable to derive module descriptor for " ++ path.text ++ ": " ++ fault.message
  | unnamedPackage path entry =>
    entry ++ " found in top-level directory of " ++ path.text ++
      " (unnamed package not allowed in module)"
  | duplicateModule name directory first second =>
    "two versions of module " ++ name ++ " found in " ++ directory.text ++ " (" ++ first.text ++
      " and " ++ second.text ++ ")"
  | unusable => "module finder cannot be used after an earlier scan failure"
  | accessDenied path => "access denied reading " ++ path.text
  | noInstallation home => "unable to detect the run-time image under " ++ home.text

end SearchError

end ModuleSearch
