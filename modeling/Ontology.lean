import Ontology.Catalog.Export
import Ontology.Catalog.Lexicon
import Ontology.Catalog.OfGraph
import Ontology.Catalog.Terminology
import Ontology.Membership.Query
import Ontology.Membership.WorkingSet
import Ontology.Proofs.Catalog.Agreement
import Ontology.Proofs.Catalog.Description
import Ontology.Proofs.Catalog.Interchange
import Ontology.Proofs.Catalog.Lexicon
import Ontology.Proofs.Catalog.Literals
import Ontology.Proofs.Catalog.Lookups
import Ontology.Proofs.Membership.Algebra
import Ontology.Proofs.Membership.Completeness
import Ontology.Proofs.Membership.Counting
import Ontology.Proofs.Membership.Datatypes
import Ontology.Proofs.Membership.Denotation
import Ontology.Proofs.Membership.Domain
import Ontology.Proofs.Membership.Errors
import Ontology.Proofs.Membership.Evaluation
import Ontology.Proofs.Membership.Inheritance
import Ontology.Proofs.Membership.Instances
import Ontology.Proofs.Membership.Interpretation
import Ontology.Proofs.Membership.Matching
import Ontology.Proofs.Membership.Monotonicity
import Ontology.Proofs.Membership.Nominals
import Ontology.Proofs.Membership.Profiles
import Ontology.Proofs.Membership.Relevance
import Ontology.Proofs.Membership.Reordering
import Ontology.Proofs.Membership.Restrictions
import Ontology.Proofs.Membership.Roles
import Ontology.Proofs.Membership.Subsumption
import Ontology.Proofs.Membership.Transitivity
import Ontology.Proofs.Membership.WorkingSet
import Ontology.Proofs.Rdf.Chain
import Ontology.Proofs.Rdf.Collection
import Ontology.Proofs.Relation.Bridge
import Ontology.Proofs.Relation.Worklist
import Ontology.Proofs.Store.Acceptance
import Ontology.Proofs.Store.Atomicity
import Ontology.Proofs.Store.Consistency
import Ontology.Proofs.Store.Content
import Ontology.Proofs.Store.Equality
import Ontology.Proofs.Store.Export
import Ontology.Proofs.Store.Groups
import Ontology.Proofs.Store.Index
import Ontology.Proofs.Store.Indexed
import Ontology.Proofs.Store.Listing
import Ontology.Proofs.Store.Paths
import Ontology.Proofs.Store.Permanence
import Ontology.Proofs.Store.Profiles
import Ontology.Proofs.Store.Reached
import Ontology.Proofs.Store.Rejection
import Ontology.Proofs.Store.Remarks
import Ontology.Proofs.Store.Renaming
import Ontology.Proofs.Store.Runs
import Ontology.Proofs.Store.Unrepeated
import Ontology.Proofs.Store.Updates
import Ontology.Proofs.Value.Equality
import Ontology.Relation.Table
import Ontology.Store.Basic
import Ontology.Store.Export
import Ontology.Store.Index
import Ontology.Store.Indexed
