import Interop.Name
import Interop.Interner
import Interop.Text.Dotted
import Interop.Diagnostic.Listing
import Interop.Scope
import Interop.Options
import Interop.Pass.Defect
import Interop.Annotations
import Interop.Typing.Retype
import Interop.Enumeration
import Interop.Export
import Interop.JsAny
import Interop.Shorthand
import Interop.Pass.Rule
import Interop.Script
import Interop.Pool
import Interop.Batch
import Interop.Proofs.Children
import Interop.Proofs.Installed
import Interop.Proofs.Running
import Interop.Proofs.Rules
import Interop.Proofs.Stages
import Interop.Proofs.Assign
import Interop.Proofs.Visits
import Interop.Proofs.Rewrites
import Interop.Proofs.Exposed
import Interop.Proofs.Leftovers
import Interop.Proofs.Exports
import Interop.Proofs.Openings
import Interop.Proofs.Log
import Interop.Proofs.Marking
import Interop.Proofs.Independence
import Interop.Proofs.Markers
import Interop.Proofs.Fit
import Interop.Proofs.Completion
import Interop.Proofs.Forwarders
import Interop.Proofs.DefaultNames
import Interop.Proofs.Nesting
import Interop.Proofs.Splicing
import Interop.Proofs.Bodies
import Interop.Proofs.Quiet
import Interop.Proofs.Delivery
import Interop.Proofs.Verdicts
import Interop.Proofs.Placement
import Interop.Proofs.Places
import Interop.Proofs.Declarations
import Interop.Proofs.Members
import Interop.Proofs.Ownership
import Interop.Proofs.Lookups
import Interop.Proofs.Indexing
import Interop.Proofs.Outcomes
import Interop.Proofs.Ancestry
import Interop.Proofs.NamedCalls
import Interop.Proofs.Warnings
import Interop.Proofs.ValueNames
import Interop.Proofs.Restoring
import Interop.Proofs.Stable
import Interop.Proofs.Sequencing
import Interop.Proofs.Tokens
import Interop.Proofs.ExportReports
import Interop.Proofs.HasType
import Interop.Proofs.Filling
import Interop.Proofs.Aliases
import Interop.Proofs.Conformance
import Interop.Proofs.Inheritance
import Interop.Proofs.OwnerChains
import Interop.Proofs.Spellings
import Interop.Proofs.Positions
import Interop.Proofs.SharedStart
import Interop.Proofs.ShorthandNames
import Interop.Proofs.Interning
import Interop.Proofs.Mapping
