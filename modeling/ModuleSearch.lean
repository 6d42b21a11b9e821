import ModuleSearch.Main
import ModuleSearch.Storage.Volume
import ModuleSearch.Proofs.Catalog.Eager
import ModuleSearch.Proofs.Catalog.View
import ModuleSearch.Proofs.Catalog.Failure
import ModuleSearch.Proofs.Catalog.Monoid
import ModuleSearch.Proofs.Catalog.LongerPath
import ModuleSearch.Proofs.Catalog.Completion
import ModuleSearch.Proofs.Version.Tokens
import ModuleSearch.Proofs.Version.Order
import ModuleSearch.Proofs.Version.Runs
import ModuleSearch.Proofs.Version.Grammar
import ModuleSearch.Proofs.Version.Comparison
import ModuleSearch.Proofs.Version.Canonical
import ModuleSearch.Proofs.Version.Extension
import ModuleSearch.Proofs.Descriptor.Declarations
import ModuleSearch.Proofs.Descriptor.Build
import ModuleSearch.Proofs.Automatic.DerivedName
import ModuleSearch.Proofs.Automatic.FileName
import ModuleSearch.Proofs.Automatic.WrittenName
import ModuleSearch.Proofs.Archive.Names
import ModuleSearch.Proofs.Archive.Files
import ModuleSearch.Proofs.Automatic.Sources
import ModuleSearch.Proofs.Automatic.Descriptor
import ModuleSearch.Proofs.Catalog.Origin
import ModuleSearch.Proofs.Storage.Lawful
import ModuleSearch.Proofs.Storage.Tree
import ModuleSearch.Proofs.Storage.Volume
import ModuleSearch.Proofs.Storage.Files
import ModuleSearch.Proofs.Module.Discovery
import ModuleSearch.Proofs.Module.Walk
import ModuleSearch.Proofs.Module.Content
import ModuleSearch.Proofs.Module.Listing
import ModuleSearch.Proofs.NameMap
import ModuleSearch.Proofs.Storage.Subtree
import ModuleSearch.Proofs.Module.Confinement
import ModuleSearch.Proofs.Module.ImageFiles
import ModuleSearch.Proofs.Catalog.Unpacked
import ModuleSearch.Proofs.Catalog.ImageIndex
import ModuleSearch.Proofs.Catalog.Union
import ModuleSearch.Proofs.Json.Written
import ModuleSearch.Proofs.Descriptor.Displayed
import ModuleSearch.Proofs.CommandLine.Commands
import ModuleSearch.Proofs.Catalog.Entries
import ModuleSearch.Proofs.Catalog.Padded
import ModuleSearch.Proofs.Catalog.Candidates
import ModuleSearch.Proofs.Catalog.Directory
import ModuleSearch.Proofs.Storage.NewChild
import ModuleSearch.Proofs.Storage.Graft
import ModuleSearch.Proofs.Storage.GraftChildren
import ModuleSearch.Proofs.Catalog.Inert
import ModuleSearch.Proofs.Url.Escape
import ModuleSearch.Proofs.Module.Location
import ModuleSearch.Proofs.Module.Places
import ModuleSearch.Proofs.Catalog.Locations
import ModuleSearch.Proofs.Automatic.ServiceFile
import ModuleSearch.Proofs.Automatic.Manifest
import ModuleSearch.Proofs.Module.Complete
import ModuleSearch.Proofs.Text.Utf8
import ModuleSearch.Proofs.BytePath
import ModuleSearch.Proofs.Module.Bytes
import ModuleSearch.Proofs.Json.Lists
import ModuleSearch.Proofs.Descriptor.Documents
import ModuleSearch.Proofs.Descriptor.Respelled
import ModuleSearch.Proofs.Archive.Lookup
