import SpecUpgrade.Span

/-!
What can be wrong with a syntax tree or with the dump that it is read from.
-/

namespace SpecUpgrade

inductive DumpFault where
  | unreadable (offset : Nat)
  | tooDeep (offset limit : Nat)
  | disorder (start stop : Nat)
  | other (reason : String)
  deriving DecidableEq, Repr

def DumpFault.message : DumpFault → String
  | unreadable offset =>
    "at byte " ++ Nat.repr offset
      ++ " of dump: ContextError \x7b context: [], cause: None \x7d"
  | tooDeep offset limit =>
    "at byte " ++ Nat.repr offset ++ " of dump: nodes nested deeper than " ++ Nat.repr limit
      ++ " levels"
  | disorder start stop =>
    "range " ++ Nat.repr start ++ ".." ++ Nat.repr stop ++ " ends before it begins"
  | other reason => reason

inductive TreeError where
  | malformed (fault : DumpFault)
  | invalidRange (range : Span) (length : Nat)
  | alreadyAdopted (node : Nat)
  | unknownNode (node : Nat)
  | detached (node : Nat)
  | producer (reason : String)
  deriving DecidableEq, Repr

def TreeError.message : TreeError → String
  | malformed fault => "malformed AST dump: " ++ fault.message
  | invalidRange range length =>
    "node range " ++ range.display ++ " is invalid for source of length " ++ Nat.repr length
  | alreadyAdopted node => "node " ++ Nat.repr node ++ " already has a parent"
  | unknownNode node => "unknown node id " ++ Nat.repr node
  | detached node => "node " ++ Nat.repr node ++ " is not reachable from the root"
  | producer reason => "AST producer failed: " ++ reason

end SpecUpgrade
