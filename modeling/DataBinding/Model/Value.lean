-- Model values. A value is a scalar or a handle of a container; a copied handle means the same
-- container. `Value.same` is the equality by which a write is judged: scalars by value, so NaN
-- differs from itself and the two zeros agree, and containers by identity.
import DataBinding.Number.Basic

namespace DataBinding

/-! ## Handles -/

structure MapId where
  index : Nat
deriving DecidableEq, Repr, Hashable

structure ListId where
  index : Nat
deriving DecidableEq, Repr, Hashable

inductive Container where
  | map (m : MapId)
  | list (l : ListId)
deriving DecidableEq, Repr, Hashable

/-! ## Values -/

inductive Value where
  | null
  | bool (b : Bool)
  | number (n : Number)
  | text (s : String)
  | map (m : MapId)
  | list (l : ListId)
deriving DecidableEq, Repr

namespace Value

def container? : Value → Option Container
  | .map m => some (.map m)
  | .list l => some (.list l)
  | _ => none

def isContainer (v : Value) : Bool := v.container?.isSome

def isNull : Value → Bool
  | .null => true
  | _ => false

/-- The number a value is, and zero for every other value. -/
def numberOrZero : Value → Number
  | .number n => n
  | _ => .zero

/-- Equality of values: scalars by value, containers by identity. -/
def same : Value → Value → Bool
  | .null, .null => true
  | .bool a, .bool b => a = b
  | .number a, .number b => a.sameValue b
  | .text a, .text b => a = b
  | .map a, .map b => a = b
  | .list a, .list b => a = b
  | _, _ => false

end Value

end DataBinding
