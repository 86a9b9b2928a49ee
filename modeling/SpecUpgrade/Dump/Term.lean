import SpecUpgrade.Tree.Basic

/-!
Dumps of syntax trees. A dump is one node in parentheses: its kind, the places of the node and of
its heredoc body where they are known, and its children.
-/

namespace SpecUpgrade.Dump

/-- Two offsets as they are written, in any order. -/
abbrev Bounds := Nat × Nat

structure Head where
  kind : String
  range : Option Bounds
  heredoc : Option Bounds
  deriving DecidableEq, Repr

inductive Term where
  | literal (l : Literal)
  | node (head : Head) (children : List Term)
  deriving Repr

def span (bounds : Bounds) : Except TreeError Span :=
  match Span.ofBounds? bounds.1 bounds.2 with
  | some s => .ok s
  | none => .error (.malformed (.disorder bounds.1 bounds.2))

/-- The place of a node; one without bounds stands at the start of the source. -/
def Head.place (h : Head) : Except TreeError Span :=
  match h.range with
  | some bounds => span bounds
  | none => .ok (Span.point 0)

def Head.body (h : Head) : Except TreeError (Option Span) :=
  match h.heredoc with
  | some bounds => (span bounds).map some
  | none => .ok none

mutual

/-- Adds a node to a tree, its children first and from left to right. -/
def addNode (b : Builder) (head : Head) : List Term → Except TreeError (Nat × Builder)
  | children => do
    let range ← head.place
    let heredoc ← head.body
    let (slots, b) ← addChildren b children
    b.push head.kind range heredoc slots

def addTerm (b : Builder) : Term → Except TreeError (Child × Builder)
  | .literal l => .ok (.literal l, b)
  | .node head children => do
    let (id, b) ← addNode b head children
    return (.node id, b)

def addChildren (b : Builder) : List Term → Except TreeError (List Child × Builder)
  | [] => .ok ([], b)
  | term :: terms => do
    let (slot, b) ← addTerm b term
    let (slots, b) ← addChildren b terms
    return (slot :: slots, b)

end

end SpecUpgrade.Dump
