import SkewBox.Bound.Read
import SkewBox.Frame

/-!
# Configurations

* `Numbers`: how a domain computes with bounds.
* `Config`: the settings of a domain, as its owner gives them.
* `Config.warnings`: what is doubtful in a configuration.
* `Config.render`: the text of the domain with a configuration.
-/

namespace SkewBox

/-- How a domain computes with bounds; anything that names no way of computing stands for
binary64. -/
inductive Numbers where
  | exact
  | binary64
  | unknown (given : Datum)

structure Config where
  numbers : Numbers := .exact
  tightenIntegers : Bool := true
  maxVertices : Int := 4096
  /-- Thresholds for widenings that are not given any; read at each use. -/
  thresholds : List Datum := []
  limits : Limits := {}

namespace Config

def settings (c : Config) : Settings where
  precision :=
    match c.numbers with
    | .exact => .exact
    | .binary64 | .unknown _ => .binary64
  tightenIntegers := c.tightenIntegers
  maxVertices := c.maxVertices
  limits := c.limits

def thresholdWarning? (t : Datum) : Option String :=
  match Bound.ofDatum t with
  | .ok _ => none
  | .error e => some ("widening threshold " ++ t.render ++ ": " ++ e.message)

def warnings (c : Config) : List String :=
  let numbers := match c.numbers with
    | .unknown given => ["num must be a NumKind, got " ++ given.render]
    | .exact | .binary64 => []
  let vertices := if c.maxVertices ≤ 0 then ["max_generator_vertices must be positive"] else []
  numbers ++ vertices ++ c.thresholds.filterMap thresholdWarning?

def render (c : Config) : Except Error String :=
  match c.numbers with
  | .exact => .ok "ParallelotopeManager(num=mpq)"
  | .binary64 => .ok "ParallelotopeManager(num=double)"
  | .unknown _ => .error (.fault .attribute)

end Config

end SkewBox
