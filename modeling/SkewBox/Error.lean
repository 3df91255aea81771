import SkewBox.Datum

/-!
# Errors

Every way in which a call can fail is a constructor of `Error` that carries what its
message needs.

* `Fault`: failures that have no wording of their own.
* `Error`: all causes.
* `Error.family`: which family of failures a cause belongs to.
* `Error.message`: the wording of a cause.
-/

namespace SkewBox

/-- A failure below the level of the domain: an impossible look-up, conversion or
combination of sorts. -/
inductive Fault where
  | overflow
  | index
  | key
  | sort
  | value
  | attribute
  | nesting
  | width
  deriving DecidableEq, Repr

/-- The families of failures that callers tell apart. -/
inductive Family where
  | invalidArgument
  | unsupported
  | foreignValue
  | badPayload
  | badText
  | fault (f : Fault)
  deriving DecidableEq, Repr

inductive Error where
  -- numbers
  | notANumber (b : Bool)
  | nanBound
  | unreadableNumber (text : String)
  | unsupportedNumber (kind : String)
  | intervalShape (shown : String)
  -- spaces, changes and permutations
  | negativeCounts (ints reals : Int)
  | dimensionRange (shown : String) (size : Nat)
  | duplicateDimension (dims : List Int)
  | changeNegative
  | changeCount (listed : Nat) (ints reals : Int)
  | changeUnsorted (positions : List Int)
  | notPermutation (images : List Int)
  -- expressions, constraints and generators
  | badVariableIndex (tree : Bool) (shown : String)
  | intervalCoefficients
  | beyondSpace (tree : Bool) (dim size : Int)
  | missingModulus
  | notUnary (op : String)
  | notBinary (op : String)
  | infiniteCoordinate
  -- values
  | shapeMismatch (size : Nat)
  | notSquare
  | singularBasis
  | noBasis
  | becameSingular
  | spaceMismatch (first second : String)
  -- operations
  | constraintOutside (shown : String) (size : Nat)
  | expressionOutside (shown : String) (size : Nat)
  | emptyMeet
  | emptyJoin
  | vertexAsRay
  | generatorSize (shown : String)
  | modularGenerator (shown : String)
  | badEpsilon (shown : String)
  | insertionRange (position : Int) (size : Nat)
  | crossesBoundary (integer : Bool) (position : Int) (boundary : Nat)
  | announcedIntegers (announced : Int) (listed : Nat)
  | permutationSize (given size : Nat)
  | expandCount (count : Int)
  | foldEmpty
  | foldMixed
  | arity (dims exprs : Nat)
  | boxSize (given size : Nat)
  | tooManyVertices (count : Nat) (limit : Int)
  -- owned values
  | notAValue (kind : String)
  | emptyArray
  | foreignOwner (owner user : String)
  -- payloads
  | headerTooShort
  | badMagic (shown : String)
  | truncatedPayload (need : Nat)
  | notJson
  | payloadVersion
  | malformed (detail : Option String)
  | infiniteBasis
  | basisNotInvertible
  | notABoundText (shown : String)
  | badBoundText (shown : String)
  -- texts
  | duplicateNames (names : List String)
  | unknownVariable (name : String)
  | unnumberedVariable (name : String)
  | badNotation (position : Nat)
  | unbuildable (detail : String)
  | notLinear
  | modulusWithoutEquality
  -- anything else
  | fault (f : Fault)
  deriving Repr, DecidableEq

namespace Error

def family : Error → Family
  | modularGenerator _ => .unsupported
  | foreignOwner .. => .foreignValue
  | headerTooShort | badMagic _ | truncatedPayload _ | notJson | payloadVersion | malformed _
  | infiniteBasis | basisNotInvertible | notABoundText _ | badBoundText _ => .badPayload
  | badNotation _ | unbuildable _ | notLinear | modulusWithoutEquality => .badText
  | fault f => .fault f
  | _ => .invalidArgument

def indexRange (size : Nat) : String := "0.." ++ toString ((size : Int) - 1)

def message : Error → String
  | notANumber b => "not a number: " ++ Datum.renderBool b
  | nanBound => "NaN is not a valid bound"
  | unreadableNumber text => "cannot read a number from " ++ Text.quote text
  | unsupportedNumber kind => "unsupported number type: " ++ kind
  | intervalShape shown => "an interval needs two bounds, got " ++ shown
  | negativeCounts ints reals => s!"negative dimension counts ({ints}, {reals})"
  | dimensionRange shown size => s!"dimension {shown} out of range " ++ indexRange size
  | duplicateDimension dims => "duplicate dimension in " ++ Datum.renderInts dims
  | changeNegative => "negative counts in dimension change"
  | changeCount listed ints reals =>
    s!"dimension change lists {listed} positions for {ints}+{reals} dimensions"
  | changeUnsorted positions =>
    "dimension change positions not sorted: " ++ Datum.renderTuple positions
  | notPermutation images =>
    "not a permutation of " ++ indexRange images.length ++ ": " ++ Datum.renderTuple images
  | badVariableIndex tree shown =>
    "bad dimension in " ++ (if tree then "tree" else "linear") ++ " expression: " ++ shown
  | intervalCoefficients => "expression has interval coefficients"
  | beyondSpace tree dim size =>
    (if tree then "tree " else "") ++
      s!"expression mentions dimension {dim} in a space of size {size}"
  | missingModulus => "an EQMOD constraint needs a modulo"
  | notUnary op => op ++ " is not a unary operator"
  | notBinary op => op ++ " is not a binary operator"
  | infiniteCoordinate => "generator coordinates must be finite"
  | shapeMismatch size => s!"basis/bounds do not match dimension {size}"
  | notSquare => "basis is not square"
  | singularBasis => "basis is singular"
  | noBasis => "bottom has no basis"
  | becameSingular => "parallelotope basis became singular"
  | spaceMismatch first second => s!"dimension mismatch: {first} vs {second}"
  | constraintOutside shown size =>
    s!"constraint {shown} mentions a dimension outside " ++ indexRange size
  | expressionOutside shown size =>
    s!"expression {shown} mentions a dimension outside " ++ indexRange size
  | emptyMeet => "meet of an empty array"
  | emptyJoin => "join of an empty array"
  | vertexAsRay => "add_ray_array does not accept vertices"
  | generatorSize shown => s!"generator {shown} has the wrong dimension"
  | modularGenerator shown => s!"modular generator {shown} is not supported"
  | badEpsilon shown => "epsilon must be a finite non-negative number, got " ++ shown
  | insertionRange position size => s!"insertion position {position} out of range 0..{size}"
  | crossesBoundary integer position boundary =>
    (if integer then "integer" else "real") ++
      s!" dimension inserted at {position} crosses the integer/real boundary {boundary}"
  | announcedIntegers announced listed =>
    s!"dimension change announces {announced} integer dimensions, lists {listed}"
  | permutationSize given size => s!"permutation of size {given} for a space of size {size}"
  | expandCount count => s!"cannot expand into {count} dimensions"
  | foldEmpty => "fold needs at least one dimension"
  | foldMixed => "fold mixes integer and real dimensions"
  | arity dims exprs => s!"{dims} dimensions for {exprs} expressions"
  | boxSize given size => s!"box of {given} intervals for {size} dimensions"
  | tooManyVertices count limit => s!"{count} vertices exceed the configured limit of {limit}"
  | notAValue kind => "expected an Abstract0, got " ++ kind
  | emptyArray => "empty array of abstract values"
  | foreignOwner owner user => s!"value belongs to {owner}, not to {user}"
  | headerTooShort => "buffer shorter than the frame header"
  | badMagic shown => "bad magic " ++ shown
  | truncatedPayload need => s!"truncated payload: need {need} bytes"
  | notJson => "payload is not valid JSON"
  | payloadVersion => "unsupported payload version"
  | malformed none => "malformed payload"
  | malformed (some detail) => "malformed payload: " ++ detail
  | infiniteBasis => "basis entries must be finite"
  | basisNotInvertible => "basis is not an invertible square matrix of the right size"
  | notABoundText shown => "bound must be a string, got " ++ shown
  | badBoundText shown => "bad bound " ++ shown
  | duplicateNames names =>
    "duplicate variable names in [" ++ ", ".intercalate (names.map Text.quote) ++ "]"
  | unknownVariable name => "unknown variable " ++ Text.quote name
  | unnumberedVariable name => "variable " ++ Text.quote name ++ " is not of the form x<k>"
  | badNotation _ => "syntax error"
  | unbuildable detail => "cannot build expression: " ++ detail
  | notLinear => "expression is not linear"
  | modulusWithoutEquality => "'mod' is only allowed with '='"
  | fault _ => ""

end Error

end SkewBox
