import SpecUpgrade.Probe.Quoted
import SpecUpgrade.Probe.Request
import SpecUpgrade.Revision
import SpecUpgrade.Text.Blank

/-!
Instrumented source. Every node with requests is wrapped in a call of the probe, which passes the
value of the node through and records the answers under the place of the node.
-/

namespace SpecUpgrade.Probe

def method : String := "respec_analyze"

/-- What is wrapped for a node: a call that a block is attached to is wrapped with its block. -/
def target (t : Tree) (node : Nat) : Nat :=
  match t.parent? node with
  | some p =>
    if (t.kind p == "block" || t.kind p == "numblock") && t.slot? node == some 0 then p else node
  | none => node

/-- Nothing but blanks or a comment follows the offset on its line. -/
def lineIsDone (source : String) (offset : Nat) : Bool :=
  let line := (Text.dropTo offset source.toList).takeWhile (· != '\n')
  match Text.trimStart line with
  | [] => true
  | c :: _ => c == '#'

/-- One request as an entry of the hash that the probe is given. -/
def pair (entry : String × Request) : String :=
  quote entry.1 ++ " => [" ++ quote entry.2.target.name ++ ", " ++ quote entry.2.code ++ "]"

/-- The first half of the wrapper. -/
def front : String := method ++ "(("

/-- The second half: the requests, then the path and the place of the node. -/
def rear (t : Tree) (node : Nat) (requests : List (String × Request)) : String :=
  let range := t.range node
  "), self, \x7b" ++ String.intercalate ", " (requests.map pair) ++ "\x7d, " ++ quote t.path
    ++ ", " ++ Nat.repr range.start ++ ", " ++ Nat.repr range.stop ++ ")"

/-- The edit that closes the wrapper of a target. Where a heredoc ends after the target and the
line of the target holds no more code, the wrapper is closed on a line of its own after it. -/
def closing (t : Tree) (target : Nat) (rear : String) : Edit :=
  let range := t.range target
  match t.heredocEnd? target with
  | some stop =>
    if h : range.stop < stop ∧ lineIsDone t.source range.stop = true then
      .insertAfter ⟨range.start, stop, Nat.le_trans range.start_le_stop (Nat.le_of_lt h.1)⟩
        ("\n" ++ rear)
    else .insertAfter range rear
  | none => .insertAfter range rear

def edits (t : Tree) (node : Nat) (requests : List (String × Request)) : List Edit :=
  let wrapped := target t node
  [.insertBefore (t.range wrapped) front, closing t wrapped (rear t node requests)]

/-- A source with probes, and which nodes have got one. -/
structure Instrumented where
  source : String
  instrumented : List Nat
  skipped : List Nat
  deriving DecidableEq, Repr

def addProbe (t : Tree) (state : Revision × List Nat × List Nat)
    (entry : Nat × List (String × Request)) : Revision × List Nat × List Nat :=
  let (r, instrumented, skipped) := state
  match r.submitAll (edits t entry.1 entry.2) with
  | .ok r => (r, instrumented ++ [entry.1], skipped)
  | .error _ => (r, instrumented, skipped ++ [entry.1])

/-- Wraps every node with requests. -/
def instrument (t : Tree) (requests : Requests) : Instrumented :=
  let (r, instrumented, skipped) := requests.foldl (addProbe t) (.ofSource t.source, [], [])
  ⟨r.render, instrumented, skipped⟩

end SpecUpgrade.Probe
