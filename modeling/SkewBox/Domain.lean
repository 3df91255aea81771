import SkewBox.Domain.Config
import SkewBox.Domain.Operation
import SkewBox.Op

/-!
# Domains

A domain runs operations under one configuration and remembers how the last one ended.

* `Status`: how an operation ended.
* `Failure`: the cause of a failure and the operation that met it.
* `Domain.record`: the domain after an operation.
-/

namespace SkewBox

/-- How the last operation ended. -/
structure Status where
  /-- The result is exactly the image of the operands. -/
  exact : Bool := true
  best : Bool := true
  failure : Option Family := none
  deriving DecidableEq, Repr

structure Domain where
  config : Config := {}
  status : Status := {}

structure Failure where
  operation : Option Operation
  cause : Error
  deriving DecidableEq, Repr

namespace Failure

def outside (e : Error) : Failure := ⟨none, e⟩

/-- The wording of a failure: the cause after the name of the operation. -/
def message (f : Failure) : String :=
  match f.operation with
  | none => f.cause.message
  | some o => o.name ++ ": " ++ f.cause.message

end Failure

namespace Domain

variable {α : Type}

/-- The domain after an operation with the given result and report.  A failure below the level of
the domain leaves no trace in its status. -/
def record (d : Domain) (result : Except Error α) (report : Report) : Domain :=
  match result with
  | .ok _ => { d with status := ⟨report.exact, report.exact, none⟩ }
  | .error (.fault _) => d
  | .error e => { d with status := ⟨false, false, some e.family⟩ }

end Domain

end SkewBox
