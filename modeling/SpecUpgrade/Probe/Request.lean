import SpecUpgrade.SortedMap
import SpecUpgrade.Tree.Walk

/-!
Questions about nodes that only a test run can answer. A question has a key, an expression, and
says what the expression is evaluated in.
-/

namespace SpecUpgrade.Probe

/-- An expression is evaluated in the value of the node or in the instance that runs it. -/
inductive Target where
  | value
  | context
  deriving DecidableEq, Repr

namespace Target

def name : Target → String
  | value => "self"
  | context => "context"

def ofName? : String → Option Target
  | "self" => some value
  | "context" => some context
  | _ => none

end Target

structure Request where
  target : Target
  code : String
  deriving DecidableEq, Repr

/-- The requests of a tree: for each node, its requests by key. -/
abbrev Requests := List (Nat × List (String × Request))

/-- A key was asked for twice with different requests. -/
structure Conflict where
  node : String
  key : String
  deriving DecidableEq, Repr

def Conflict.message (c : Conflict) : String :=
  "conflicting analysis request '" ++ c.key ++ "' on " ++ c.node

/-- Adds a request. The same request may be added again. -/
def register (t : Tree) (requests : Requests) (node : Nat) (key : String) (request : Request) :
    Except Conflict Requests :=
  let entries := (SortedMap.find? node requests).getD []
  match SortedMap.find? key entries with
  | some existing =>
    if existing = request then .ok requests
    else .error ⟨t.kind node ++ " at " ++ (t.range node).display, key⟩
  | none => .ok (SortedMap.insert node (SortedMap.insert key request entries) requests)

end SpecUpgrade.Probe
