import SpecUpgrade.Facts.Payload
import SpecUpgrade.Probe.Request
import SpecUpgrade.Rule.Match
import SpecUpgrade.Scope.Context

/-!
Methods that converted code calls. Whether one can be called at a node is what a test run recorded
there, or else what the scopes around the node say.
-/

namespace SpecUpgrade

structure Availability where
  key : String
  method : String
  deriving DecidableEq, Repr

namespace Availability

def expect : Availability := ⟨"expect_available?", "expect"⟩

def allow : Availability := ⟨"allow_available?", "allow"⟩

/-- The request that asks a test run. -/
def request (a : Availability) : Probe.Request :=
  ⟨.context, "respond_to?(:" ++ a.method ++ ", true)"⟩

/-- The method can be called at a node. -/
def holds (a : Availability) (t : Tree) (facts : Facts) (node : Nat) : Bool :=
  (facts.truthy? t node a.key).getD (t.inExampleContext node)

end Availability

/-- What a match needs where it stands; a float comparison needs nothing. -/
def Match.needs? : Match → Option Availability
  | should _ _ _ _ => some .expect
  | stub _ _ _ _ => some .allow
  | beClose _ _ _ => none

namespace Probe

def registerMatch (t : Tree) (requests : Requests) (m : Match) : Except Conflict Requests :=
  match m.needs? with
  | some a => register t requests m.node a.key a.request
  | none => .ok requests

/-- The requests of all matches in a tree. -/
def collect (t : Tree) (enabled : List Rule) : Except Conflict Requests :=
  (Match.all t enabled).foldlM (registerMatch t) []

end Probe
end SpecUpgrade
