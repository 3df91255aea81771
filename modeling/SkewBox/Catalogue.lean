import SkewBox.Domain.Operation

/-!
# Catalogue

What the library says about itself.

* `Catalogue.version`, `Catalogue.parts`, `Catalogue.exports`.
-/

namespace SkewBox.Catalogue

def version : String := "0.1.0"

/-- The parts, each with the names that it offers. -/
def registry : List (String × List String) :=
  [("errors", ["PtopeError", "InvalidArgumentError", "NotImplementedOperationError",
      "ManagerMismatchError", "DeserializationError", "ParseError"]),
    ("scalar", ["Interval", "NumKind", "Rounding", "NEG_INF", "POS_INF"]),
    ("linear", ["Dimension", "DimChange", "DimPerm", "Linexpr", "Lincons", "ConsType",
      "Generator", "GenType"]),
    ("texpr", ["Texpr", "TexprOp", "Cst", "Dim", "Unop", "Binop", "Tcons", "sqrt", "cast"]),
    ("matrix", []),
    ("ptope", ["Ptope", "OpContext"]),
    ("properties", []),
    ("lattice", []),
    ("dimensions", []),
    ("transfer", []),
    ("convert", []),
    ("serialize", []),
    ("manager", ["NumericalDomain", "ParallelotopeManager", "ManagerConfig", "ManagerResult",
      "FunId"]),
    ("abstract0", ["Abstract0"]),
    ("parser", ["ConstraintParser", "parse_lincons", "parse_linexpr", "parse_tcons",
      "parse_texpr"])]

def sorted (names : List String) : List String := names.mergeSort fun a b => !(b < a)

def parts : List String := sorted (registry.map (·.1))

/-- Every name on offer, the parts and two summaries included. -/
def exports : List String :=
  sorted (registry.flatMap (fun (part, names) => names ++ [part]) ++
    ["list_submodules", "substrate_info"])

end SkewBox.Catalogue
