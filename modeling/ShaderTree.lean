import ShaderTree.Compiler
import ShaderTree.Symbol.Parameter
import ShaderTree.Walk.Script
import ShaderTree.Proofs.Outcome
import ShaderTree.Proofs.Term
import ShaderTree.Proofs.Components
import ShaderTree.Proofs.Splitting
import ShaderTree.Proofs.Constructor
import ShaderTree.Proofs.SameValue
import ShaderTree.Proofs.ScalarizeWalk
import ShaderTree.Proofs.CheckRules
import ShaderTree.Proofs.Comparisons
import ShaderTree.Proofs.NodeRules
import ShaderTree.Proofs.Acceptance
import ShaderTree.Proofs.Growth
import ShaderTree.Proofs.Rewrites
import ShaderTree.Proofs.Preservation
import ShaderTree.Proofs.Lifting
import ShaderTree.Proofs.Revalidation
import ShaderTree.Proofs.Reachability
import ShaderTree.Proofs.References
import ShaderTree.Proofs.Visibility
import ShaderTree.Proofs.ElementCount
import ShaderTree.Proofs.Unscalarized
import ShaderTree.Proofs.Temporaries
import ShaderTree.Proofs.Hoisting
import ShaderTree.Proofs.Frame
import ShaderTree.Proofs.Course
import ShaderTree.Proofs.Evaluation
import ShaderTree.Proofs.SameCourse
import ShaderTree.Proofs.EvaluationOrder
import ShaderTree.Proofs.SideEffects
import ShaderTree.Proofs.Independence
import ShaderTree.Proofs.IndexBounds
import ShaderTree.Proofs.IndexConstants
import ShaderTree.Proofs.Faults
import ShaderTree.Proofs.Resolution
import ShaderTree.Proofs.Malformed
import ShaderTree.Proofs.Writes
import ShaderTree.Proofs.Visits
import ShaderTree.Proofs.Recording
import ShaderTree.Proofs.Ancestry
import ShaderTree.Proofs.Sites
import ShaderTree.Proofs.Splicing
import ShaderTree.Proofs.Tour
import ShaderTree.Proofs.Insertions
import ShaderTree.Proofs.Edits
import ShaderTree.Proofs.Handover
import ShaderTree.Proofs.Observers
import ShaderTree.Proofs.DepthFirst
import ShaderTree.Proofs.StructNames
import ShaderTree.Proofs.InternalSymbols
import ShaderTree.Proofs.Leaves
import ShaderTree.Proofs.LocalNames
import ShaderTree.Proofs.Declarations
import ShaderTree.Proofs.Renamings
import ShaderTree.Proofs.Operations
import ShaderTree.Proofs.Aging
import ShaderTree.Proofs.Scoping
import ShaderTree.Proofs.Encodings
import ShaderTree.Proofs.Overloads
import ShaderTree.Proofs.MangledNames
import ShaderTree.Proofs.Signatures
import ShaderTree.Proofs.Identities
import ShaderTree.Proofs.GeneratedNames
import ShaderTree.Proofs.Homonyms
import ShaderTree.Proofs.Idempotence
import ShaderTree.Proofs.NameIndependence
import ShaderTree.Proofs.Arithmetic
import ShaderTree.Proofs.Returns
import ShaderTree.Proofs.Availability
import ShaderTree.Proofs.ComponentRule
import ShaderTree.Proofs.Nesting
import ShaderTree.Proofs.Fetches
import ShaderTree.Proofs.SamplerRoutes
import ShaderTree.Proofs.SamplerPaths
import ShaderTree.Proofs.SamplerNames
import ShaderTree.Proofs.SamplerPresence
import ShaderTree.Proofs.Replacement
