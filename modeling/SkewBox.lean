import SkewBox.Affine
import SkewBox.Algebra.Echelon
import SkewBox.Algebra.Mat
import SkewBox.Algebra.Vec
import SkewBox.Answer
import SkewBox.Binary64
import SkewBox.Binary64.Shortest
import SkewBox.Bound
import SkewBox.Bound.Read
import SkewBox.Call
import SkewBox.Call.Misplaced
import SkewBox.Call.Primitive
import SkewBox.Catalogue
import SkewBox.Constraint
import SkewBox.Constraints
import SkewBox.Convert
import SkewBox.Datum
import SkewBox.Domain
import SkewBox.Domain.Config
import SkewBox.Domain.Operation
import SkewBox.Entries
import SkewBox.Error
import SkewBox.Forget
import SkewBox.Formula
import SkewBox.Formula.Reader
import SkewBox.Formula.Surface
import SkewBox.Frame
import SkewBox.Interval
import SkewBox.Interval.Functions
import SkewBox.Join
import SkewBox.Limits
import SkewBox.Meet
import SkewBox.Op
import SkewBox.Parallelotope
import SkewBox.Payload
import SkewBox.Payload.Json
import SkewBox.Precision
import SkewBox.Proofs.Assignment
import SkewBox.Proofs.Atomicity
import SkewBox.Proofs.AttainedRanges
import SkewBox.Proofs.Binary64
import SkewBox.Proofs.BoundingBoxes
import SkewBox.Proofs.Bounds
import SkewBox.Proofs.Calls
import SkewBox.Proofs.ConstraintRoundTrip
import SkewBox.Proofs.ConstraintSoundness
import SkewBox.Proofs.Constraints
import SkewBox.Proofs.Copies
import SkewBox.Proofs.Decoding
import SkewBox.Proofs.Echelon
import SkewBox.Proofs.Emptiness
import SkewBox.Proofs.Emptying
import SkewBox.Proofs.Enclosure
import SkewBox.Proofs.ExactConstraints
import SkewBox.Proofs.ExactForget
import SkewBox.Proofs.ExactReshape
import SkewBox.Proofs.ExactResults
import SkewBox.Proofs.ExactSubstitution
import SkewBox.Proofs.ExactTerms
import SkewBox.Proofs.ExactTransfer
import SkewBox.Proofs.ExactUnion
import SkewBox.Proofs.Exactness
import SkewBox.Proofs.Expressions
import SkewBox.Proofs.Fingerprints
import SkewBox.Proofs.Forget
import SkewBox.Proofs.FreeDimensions
import SkewBox.Proofs.Functions
import SkewBox.Proofs.Generators
import SkewBox.Proofs.GroundedIntervals
import SkewBox.Proofs.GroundedMeets
import SkewBox.Proofs.GroundedOperations
import SkewBox.Proofs.Inclusion
import SkewBox.Proofs.Independence
import SkewBox.Proofs.IndependentConstraints
import SkewBox.Proofs.Insertion
import SkewBox.Proofs.Inverse
import SkewBox.Proofs.InvertibleTransfers
import SkewBox.Proofs.Iteration
import SkewBox.Proofs.Join
import SkewBox.Proofs.Json
import SkewBox.Proofs.LeastSums
import SkewBox.Proofs.LeastUnion
import SkewBox.Proofs.Linear
import SkewBox.Proofs.LinearTerms
import SkewBox.Proofs.Linearization
import SkewBox.Proofs.Meet
import SkewBox.Proofs.MergedDirections
import SkewBox.Proofs.Narrowing
import SkewBox.Proofs.NormalForm
import SkewBox.Proofs.Normalization
import SkewBox.Proofs.Numerals
import SkewBox.Proofs.Operands
import SkewBox.Proofs.Outcome
import SkewBox.Proofs.Payload
import SkewBox.Proofs.Permutation
import SkewBox.Proofs.Places
import SkewBox.Proofs.Points
import SkewBox.Proofs.ProductHulls
import SkewBox.Proofs.Products
import SkewBox.Proofs.Projection
import SkewBox.Proofs.Rank
import SkewBox.Proofs.Readers
import SkewBox.Proofs.Refolding
import SkewBox.Proofs.Refusals
import SkewBox.Proofs.Reshape
import SkewBox.Proofs.RoundTrip
import SkewBox.Proofs.Rounding
import SkewBox.Proofs.Satisfaction
import SkewBox.Proofs.Seed
import SkewBox.Proofs.Sessions
import SkewBox.Proofs.SharedAxes
import SkewBox.Proofs.Spellings
import SkewBox.Proofs.SquareRoots
import SkewBox.Proofs.Substitution
import SkewBox.Proofs.Support
import SkewBox.Proofs.TermRoundTrip
import SkewBox.Proofs.Thresholds
import SkewBox.Proofs.Transfer
import SkewBox.Proofs.UnitLaws
import SkewBox.Proofs.Vertices
import SkewBox.Proofs.Widening
import SkewBox.Proofs.WrittenConstraints
import SkewBox.Query
import SkewBox.Reshape
import SkewBox.Session
import SkewBox.Session.Owned
import SkewBox.Space
import SkewBox.Term
import SkewBox.Term.Linearize
import SkewBox.Text.Blank
import SkewBox.Text.Digit
import SkewBox.Text.Printable
import SkewBox.Text.Quoted
import SkewBox.Text.Utf8
import SkewBox.Transfer
import SkewBox.Widening
import SkewBox.Proofs.TextLimits
