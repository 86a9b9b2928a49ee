import SpecUpgrade.Json.Value

/-!
Reading of records. A record is written as an object, in which fields may be missing and others may
stand, or as a list of all its fields in order.
-/

namespace SpecUpgrade.Json

/-- The values of the named fields; in an object a missing field is null. -/
def fields? (names : List String) : Json → Option (List Json)
  | .obj members => some (names.map fun name => (SortedMap.find? name members).getD .null)
  | .arr items => if items.length = names.length then some items else none
  | _ => none

def text? : Json → Option String
  | .str s => some s
  | _ => none

def flag? : Json → Option Bool
  | .bool b => some b
  | _ => none

def maybeText? : Json → Option (Option String)
  | .null => some none
  | .str s => some (some s)
  | _ => none

/-- A whole number below a bound. -/
def count? (bound : Nat) : Json → Option Nat
  | .num (.int n) => if 0 ≤ n ∧ n < bound then some n.toNat else none
  | _ => none

def list? {α : Type} (item? : Json → Option α) : Json → Option (List α)
  | .arr items => items.mapM item?
  | _ => none

end SpecUpgrade.Json
