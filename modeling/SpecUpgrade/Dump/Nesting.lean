import SpecUpgrade.Tree.Error

/-!
A guard on the nesting of dumps, which looks at nothing but parentheses and quotes.
-/

namespace SpecUpgrade.Dump

def maxNesting : Nat := 200

/-- Where the guard stands: among nodes, in a quoted text, or after a backslash in one. -/
inductive Quoting where
  | outside
  | inside
  | escaped
  deriving DecidableEq, Repr

/-- The offset of the first parenthesis that opens a node too many. -/
def tooDeep? (offset depth : Nat) : Quoting → List Char → Option Nat
  | _, [] => none
  | .escaped, c :: cs => tooDeep? (offset + c.utf8Size) depth .inside cs
  | .inside, c :: cs =>
    let next : Quoting := if c = '\\' then .escaped else if c = '"' then .outside else .inside
    tooDeep? (offset + c.utf8Size) depth next cs
  | .outside, c :: cs =>
    if c = '"' then tooDeep? (offset + c.utf8Size) depth .inside cs
    else if c = '(' then
      if depth < maxNesting then tooDeep? (offset + c.utf8Size) (depth + 1) .outside cs
      else some offset
    else if c = ')' then tooDeep? (offset + c.utf8Size) (depth - 1) .outside cs
    else tooDeep? (offset + c.utf8Size) depth .outside cs

def guardNesting (dump : String) : Except TreeError Unit :=
  match tooDeep? 0 0 .outside dump.toList with
  | some offset => .error (.malformed (.tooDeep offset maxNesting))
  | none => .ok ()

end SpecUpgrade.Dump
