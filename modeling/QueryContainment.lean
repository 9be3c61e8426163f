import QueryContainment.Check.Decision
import QueryContainment.Conjunctive.Depth
import QueryContainment.Proofs.Check.Soundness
import QueryContainment.Proofs.Check.Declarations
import QueryContainment.Proofs.Conjunctive.Endpoints
import QueryContainment.Proofs.Conjunctive.Later
import QueryContainment.Proofs.Check.Reflexivity
import QueryContainment.Proofs.Check.Relabel
import QueryContainment.Proofs.Conjunctive.Flat
import QueryContainment.Proofs.Check.Federation
import QueryContainment.Proofs.Check.DifferentAnswers
import QueryContainment.Proofs.Smt.Criterion
import QueryContainment.Proofs.Conjunctive.Readable
import QueryContainment.Proofs.Algebra.Rename
import QueryContainment.Proofs.Conjunctive.Alike
import QueryContainment.Proofs.Conjunctive.Throughout
import QueryContainment.Proofs.Conjunctive.ProjectedClause
import QueryContainment.Proofs.Check.SideBySide
import QueryContainment.Proofs.Check.ProjectedClause
import QueryContainment.Proofs.Conjunctive.HiddenNames
import QueryContainment.Proofs.Naming.HiddenNames
import QueryContainment.Proofs.Conjunctive.Fragment
import QueryContainment.Proofs.Naming.Services
import QueryContainment.Proofs.Check.Evidence
import QueryContainment.Proofs.Check.Transitivity
import QueryContainment.Proofs.Check.BagSet
import QueryContainment.Proofs.Check.Bag
import QueryContainment.Proofs.Algebra.Translation
import QueryContainment.Proofs.Conjunctive.Translation
import QueryContainment.Proofs.Smt.Recast
import QueryContainment.Proofs.Naming.Translation
import QueryContainment.Proofs.Smt.Translation
import QueryContainment.Proofs.Check.Translation
import QueryContainment.Proofs.Naming.Scoping
import QueryContainment.Proofs.Conjunctive.Variables
import QueryContainment.Proofs.Check.Projection
import QueryContainment.Proofs.Naming.PlacedAtoms
import QueryContainment.Proofs.Conjunctive.Rearranged
import QueryContainment.Proofs.Check.Termination
import QueryContainment.Proofs.Naming.Again
import QueryContainment.Proofs.Check.NestedClauses
import QueryContainment.Proofs.Smt.History
import QueryContainment.Proofs.Smt.Injectivity
import QueryContainment.Proofs.Naming.Literals
import QueryContainment.Proofs.Smt.Reply
import QueryContainment.Proofs.Conjunctive.Visits
import QueryContainment.Proofs.Check.Partners
import QueryContainment.Proofs.Naming.Search
import QueryContainment.Proofs.Naming.Separators
import QueryContainment.Proofs.Rdf.IriReference
import QueryContainment.Proofs.Text.Utf8
import QueryContainment.Proofs.Smt.Process
import QueryContainment.Proofs.Check.Texts
