import SpecUpgrade.Facts.Payload
import SpecUpgrade.Probe.Request
import SpecUpgrade.Rule.Basic
import SpecUpgrade.Tree.Error

/-!
Why a run ends without a result. A match that cannot be converted, a file that cannot be read as a
tree and a test run that fails do not end a run.
-/

namespace SpecUpgrade

inductive Failure where
  | invalidArguments (reason : String)
  | configuration (reason : String)
  | fileNotFound (path : String)
  | parseFailed (file reason : String)
  | notApplied (reason : String) (file : Option String)
  | internal (reason : String)
  deriving DecidableEq, Repr

namespace Failure

/-- The exit status of a run that ends so. -/
def code : Failure → Nat
  | invalidArguments _ => 2
  | configuration _ => 2
  | fileNotFound _ => 3
  | parseFailed _ _ => 3
  | notApplied _ _ => 4
  | internal _ => 10

def message : Failure → String
  | invalidArguments reason => "invalid arguments: " ++ reason
  | configuration reason => "configuration error: " ++ reason
  | fileNotFound path => "file not found: " ++ path
  | parseFailed file reason => "failed to parse " ++ file ++ ": " ++ reason
  | notApplied reason _ => "apply error: " ++ reason
  | internal reason => "internal error: " ++ reason

def file? : Failure → Option String
  | fileNotFound path => some path
  | parseFailed file _ => some file
  | notApplied _ file => file
  | _ => none

end Failure

/-- A producer of dumps that cannot be started is a fault of the command given for it. -/
def TreeError.failure : TreeError → Failure
  | producer reason => .invalidArguments reason
  | e => .internal e.message

def Probe.Conflict.failure (c : Probe.Conflict) : Failure := .internal c.message

def PayloadError.describe (reason : String) : String := "malformed runtime payload: " ++ reason

def Rule.unknownFailure (name : String) : Failure := .invalidArguments (unknownMessage name)

end SpecUpgrade
