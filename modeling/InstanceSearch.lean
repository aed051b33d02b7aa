import InstanceSearch.CallSite.Error
import InstanceSearch.CallSite.Infer
import InstanceSearch.Candidate
import InstanceSearch.Capability
import InstanceSearch.Carrier.Basic
import InstanceSearch.Carrier.Error
import InstanceSearch.Carrier.Lookup
import InstanceSearch.Catalog.Basic
import InstanceSearch.Catalog.Declare
import InstanceSearch.Catalog.Error
import InstanceSearch.Catalog.InPlace
import InstanceSearch.Catalog.Inheritance
import InstanceSearch.Catalog.Nested
import InstanceSearch.Catalog.Visible
import InstanceSearch.Failure
import InstanceSearch.FirstSeen
import InstanceSearch.Hierarchy
import InstanceSearch.OrderedMap
import InstanceSearch.Search.Basic
import InstanceSearch.Search.Config
import InstanceSearch.Search.Error
import InstanceSearch.Search.Filter
import InstanceSearch.Search.Resolve
import InstanceSearch.Search.Solve
import InstanceSearch.Search.Specificity
import InstanceSearch.Subst
import InstanceSearch.Text.Blank
import InstanceSearch.Ty.Basic
import InstanceSearch.Ty.Text
import InstanceSearch.Unify.Error
import InstanceSearch.Unify.Matching
import InstanceSearch.Unify.Nested
import InstanceSearch.Unify.Solve
import InstanceSearch.Unify.Walk
import InstanceSearch.VarSet
import InstanceSearch.Watermark
import InstanceSearch.Witness
import InstanceSearch.Proofs.Subst.Acyclic
import InstanceSearch.Proofs.Subst.Values
import InstanceSearch.Proofs.Subst.Growth
import InstanceSearch.Proofs.Unify.Sound
import InstanceSearch.Proofs.Search.Calls
import InstanceSearch.Proofs.Search.CycleGuard
import InstanceSearch.Proofs.Search.Growth
import InstanceSearch.Proofs.Search.Finality
import InstanceSearch.Proofs.Catalog.Declared
import InstanceSearch.Proofs.Catalog.Parents
import InstanceSearch.Proofs.Catalog.InPlace
import InstanceSearch.Proofs.Catalog.Integrity
import InstanceSearch.Proofs.Catalog.Ancestors
import InstanceSearch.Proofs.Search.NewVars
import InstanceSearch.Proofs.Search.Soundness
import InstanceSearch.Proofs.Search.Resolution
import InstanceSearch.Proofs.Renaming.Terms
import InstanceSearch.Proofs.Renaming.Unify
import InstanceSearch.Proofs.Renaming.Catalog
import InstanceSearch.Proofs.Renaming.Records
import InstanceSearch.Proofs.Renaming.Matching
import InstanceSearch.Proofs.Search.Choice
import InstanceSearch.Proofs.Renaming.Search
import InstanceSearch.Proofs.Search.Reorder
import InstanceSearch.Proofs.Search.Order
import InstanceSearch.Proofs.Search.Outcomes
import InstanceSearch.Proofs.Search.Implied
import InstanceSearch.Proofs.Search.Learning
import InstanceSearch.Proofs.CallSite.Fresh
import InstanceSearch.Proofs.CallSite.Locality
import InstanceSearch.Proofs.Unify.Complete
import InstanceSearch.Proofs.Unify.Unifier
import InstanceSearch.Proofs.Subst.Variants
import InstanceSearch.Proofs.Unify.Variants
import InstanceSearch.Proofs.Subst.Nested
import InstanceSearch.Proofs.Subst.Normal
import InstanceSearch.Proofs.Subst.Compose
import InstanceSearch.Proofs.Unify.Nested
import InstanceSearch.Proofs.Catalog.Labels
import InstanceSearch.Proofs.Search.Lockstep
import InstanceSearch.Proofs.Search.Variants
import InstanceSearch.Proofs.Search.Decided
import InstanceSearch.Proofs.Search.Specificity
import InstanceSearch.Proofs.Renaming.NewVars
import InstanceSearch.Proofs.Search.Exact
import InstanceSearch.Proofs.Search.Constraints
import InstanceSearch.Proofs.Search.Minimize
import InstanceSearch.Proofs.Search.Uses
import InstanceSearch.Proofs.Catalog.Names
import InstanceSearch.Proofs.Carrier.Lookup
import InstanceSearch.Proofs.Carrier.Store
import InstanceSearch.Proofs.Carrier.Sessions
import InstanceSearch.Proofs.Nameless.Records
import InstanceSearch.Proofs.Nameless.Catalog
import InstanceSearch.Proofs.Nameless.Search
import InstanceSearch.Proofs.Nameless.Resolve
import InstanceSearch.Proofs.Unrelated.Search
import InstanceSearch.Proofs.Renaming.Goals
import InstanceSearch.Proofs.Ty.Readable
import InstanceSearch.Proofs.Catalog.Hierarchy
import InstanceSearch.Proofs.Catalog.Lineage
import InstanceSearch.Proofs.Catalog.Minimize
import InstanceSearch.Proofs.Catalog.Watermark
import InstanceSearch.Proofs.Carrier.Signatures
import InstanceSearch.Proofs.Catalog.Discovered
import InstanceSearch.Proofs.Unify.Matching
import InstanceSearch.Proofs.Search.Cycles
