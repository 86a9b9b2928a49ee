import SpecUpgrade.Json.Form
import SpecUpgrade.Tree.Walk
import SpecUpgrade.Word

/-!
Names of nodes that hold beyond one run: the path of the file and the place in it.
-/

namespace SpecUpgrade

structure Identity where
  path : String
  range : Span
  deriving DecidableEq, Repr

namespace Identity

def ofNode (t : Tree) (node : Nat) : Identity := ⟨t.path, t.range node⟩

def display (i : Identity) : String :=
  i.path ++ ":" ++ Nat.repr i.range.start ++ ":" ++ Nat.repr i.range.stop

/-- Digits, with a plus sign or without, that fit sixty-four bits. -/
def word? (cs : List Char) : Option Nat :=
  let digits := match cs with
    | '+' :: rest => rest
    | cs => cs
  let value := digits.foldl (fun n c => n * 10 + Json.digitValue c) 0
  if digits.isEmpty ∨ !digits.all Char.isDigit ∨ Word.bound64 ≤ value then none else some value

/-- Splits a text at its last colon. -/
def splitLast (cs : List Char) : Option (List Char × List Char) :=
  let tail := (cs.reverse.takeWhile (· != ':')).reverse
  match cs.reverse.dropWhile (· != ':') with
  | _ :: front => some (front.reverse, tail)
  | [] => none

/-- Reads a path and two offsets, with a colon before each. The path may hold colons. -/
def ofText? (key : String) : Option Identity := do
  let (front, stop) ← splitLast key.toList
  let (path, start) ← splitLast front
  let stop ← word? stop
  let start ← word? start
  let range ← Span.ofBounds? start stop
  if path.isEmpty then none else some ⟨String.ofList path, range⟩

end Identity
end SpecUpgrade
