/-!
# Names of operations

* `Operation`: the operations that a domain offers.
* `Operation.name`: the name under which an operation is reported.
* `Operation.code`: the identifier by which an operation is looked up.
* `Operation.all`: every operation, in the order of its listing.
-/

namespace SkewBox

/-- The operations that a domain offers. -/
inductive Operation where
  | copy
  | size
  | minimize
  | canonicalize
  | fingerprint
  | approximate
  | format
  | encode
  | decode
  | bottom
  | top
  | ofBox
  | ofAffine
  | ofTerms
  | ofGenerators
  | space
  | isBottom
  | isTop
  | leq
  | equal
  | isMinimal
  | isCanonical
  | isUnconstrained
  | satInterval
  | satAffine
  | satTerm
  | boundDimension
  | boundAffine
  | boundTerm
  | toBox
  | toAffine
  | toTerms
  | toGenerators
  | meet
  | meetArray
  | meetAffine
  | meetTerm
  | join
  | joinArray
  | addRays
  | assignAffine
  | substituteAffine
  | assignTerm
  | substituteTerm
  | addDimensions
  | removeDimensions
  | permute
  | forget
  | expand
  | fold
  | widening
  | wideningThresholds
  | narrowing
  | closure
  | addEpsilon
  | addEpsilonBin
  deriving DecidableEq, Repr

namespace Operation

def all : List Operation :=
  [copy, size, minimize, canonicalize, fingerprint, approximate, format, encode, decode, bottom,
    top, ofBox, ofAffine, ofTerms, ofGenerators, space, isBottom, isTop, leq, equal, isMinimal,
    isCanonical, isUnconstrained, satInterval, satAffine, satTerm, boundDimension, boundAffine,
    boundTerm, toBox, toAffine, toTerms, toGenerators, meet, meetArray, meetAffine, meetTerm,
    join, joinArray, addRays, assignAffine, substituteAffine, assignTerm, substituteTerm,
    addDimensions, removeDimensions, permute, forget, expand, fold, widening,
    wideningThresholds, narrowing, closure, addEpsilon, addEpsilonBin]

def name : Operation → String
  | copy => "copy"
  | size => "size"
  | minimize => "minimize"
  | canonicalize => "canonicalize"
  | fingerprint => "hash"
  | approximate => "approximate"
  | format => "format"
  | encode => "serialize"
  | decode => "deserialize"
  | bottom => "bottom"
  | top => "top"
  | ofBox => "of_box"
  | ofAffine => "of_lincons_array"
  | ofTerms => "of_tcons_array"
  | ofGenerators => "of_generator_array"
  | space => "dimension"
  | isBottom => "is_bottom"
  | isTop => "is_top"
  | leq => "is_leq"
  | equal => "is_eq"
  | isMinimal => "is_minimal"
  | isCanonical => "is_canonical"
  | isUnconstrained => "is_dimension_unconstrained"
  | satInterval => "sat_interval"
  | satAffine => "sat_lincons"
  | satTerm => "sat_tcons"
  | boundDimension => "bound_dimension"
  | boundAffine => "bound_linexpr"
  | boundTerm => "bound_texpr"
  | toBox => "to_box"
  | toAffine => "to_lincons_array"
  | toTerms => "to_tcons_array"
  | toGenerators => "to_generator_array"
  | meet => "meet"
  | meetArray => "meet_array"
  | meetAffine => "meet_lincons_array"
  | meetTerm => "meet_tcons_array"
  | join => "join"
  | joinArray => "join_array"
  | addRays => "add_ray_array"
  | assignAffine => "assign_linexpr_array"
  | substituteAffine => "substitute_linexpr_array"
  | assignTerm => "assign_texpr_array"
  | substituteTerm => "substitute_texpr_array"
  | addDimensions => "add_dimensions"
  | removeDimensions => "remove_dimensions"
  | permute => "permute_dimensions"
  | forget => "forget_array"
  | expand => "expand"
  | fold => "fold"
  | widening => "widening"
  | wideningThresholds => "widening_thresholds"
  | narrowing => "narrowing"
  | closure => "closure"
  | addEpsilon => "add_epsilon"
  | addEpsilonBin => "add_epsilon_bin"

/-- The identifier by which an operation is looked up: its name in capitals, but for three. -/
def code (o : Operation) : String :=
  match o with
  | format => "FPRINT"
  | encode => "SERIALIZE_RAW"
  | decode => "DESERIALIZE_RAW"
  | o => o.name.toUpper

def ofCode? (s : String) : Option Operation := all.find? fun o => o.code = s

def ofName? (s : String) : Option Operation := all.find? fun o => o.name = s

end Operation

end SkewBox
