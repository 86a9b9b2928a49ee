import SpecUpgrade.Facts.Identity
import SpecUpgrade.Json.Value

/-!
What a test run has recorded about nodes, and how it is read from the text that the run leaves.
A node that did not run has no record, which means that nothing is known about it.
-/

namespace SpecUpgrade

/-- The answer to one request: a value, or the error that came up instead. -/
structure Fact where
  result : Json
  context : Option String
  error : Option String
  deriving Repr

inductive PayloadError where
  | unreadable
  | invalidIdentity (key : String)
  deriving DecidableEq, Repr

def PayloadError.reason? : PayloadError → Option String
  | unreadable => none
  | invalidIdentity key => some ("invalid node identity '" ++ key ++ "'")

namespace Fact

open Json (Form Piece)

/-- Facts stand in two maps. -/
def depth : Nat := Json.maxDepth - 3

def text? : Form → Option (Option String)
  | .null => some none
  | .string pieces => (Json.textOfPieces? pieces).map some
  | _ => none

structure Fields where
  result : Option Json := none
  context : Option (Option String) := none
  error : Option (Option String) := none

def Fields.fact (f : Fields) : Fact :=
  ⟨f.result.getD .null, f.context.getD none, f.error.getD none⟩

/-- Takes one member of a record. A known field may come once; others are passed over. -/
def Fields.take (f : Fields) (key : String) (form : Form) : Option Fields :=
  match key with
  | "result" =>
    if f.result.isSome then none
    else (Json.ofForm? depth form).map fun v => { f with result := some v }
  | "context" =>
    if f.context.isSome then none else (text? form).map fun v => { f with context := some v }
  | "error" =>
    if f.error.isSome then none else (text? form).map fun v => { f with error := some v }
  | _ => some f

def ofMembers? (f : Fields) : List (List Piece × Form) → Option Fact
  | [] => some f.fact
  | (key, form) :: members => do
    let key ← Json.textOfPieces? key
    let f ← f.take key form
    ofMembers? f members

/-- A fact is a record, or a list of its fields in order of which the last may be missing. -/
def ofForm? : Form → Option Fact
  | .object members => ofMembers? {} members
  | .array [] => some ⟨.null, none, none⟩
  | .array [result] => do return ⟨← Json.ofForm? depth result, none, none⟩
  | .array [result, context] => do
    return ⟨← Json.ofForm? depth result, ← text? context, none⟩
  | .array [result, context, error] => do
    return ⟨← Json.ofForm? depth result, ← text? context, ← text? error⟩
  | _ => none

end Fact

/-- The records of a run: for each node that ran, its facts by key. -/
structure Facts where
  entries : List (Identity × List (String × Fact))
  deriving Repr

namespace Facts

open Json (Form Piece)

def empty : Facts := ⟨[]⟩

def size (f : Facts) : Nat := f.entries.length

def isEmpty (f : Facts) : Bool := f.entries.isEmpty

/-- Sets the facts of a node; facts that it had before are forgotten. -/
def set (f : Facts) (identity : Identity) (facts : List (String × Fact)) : Facts :=
  ⟨f.entries.filter (·.1 ≠ identity) ++ [(identity, facts)]⟩

/-- A map whose values are read by `value?`; of two values under one key the later wins. -/
def mapOf? {α : Type} (value? : Form → Option α) : Form → Option (List (String × α))
  | .object members => do
    let entries ← members.mapM fun (key, form) => do
      return (← Json.textOfPieces? key, ← value? form)
    return SortedMap.ofList entries
  | _ => none

/-- The payload as it is written: facts by key by name of node. -/
def decode? (text : String) : Option (List (String × List (String × Fact))) := do
  mapOf? (mapOf? Fact.ofForm?) (← Form.ofText? text)

/-- The facts of a decoded payload. Keys that name one node count from the last one. -/
def ofEntries (f : Facts) :
    List (String × List (String × Fact)) → Except PayloadError Facts
  | [] => .ok f
  | (key, facts) :: entries =>
    match Identity.ofText? key with
    | none => .error (.invalidIdentity key)
    | some identity => ofEntries (f.set identity facts) entries

def load (text : String) : Except PayloadError Facts :=
  match decode? text with
  | none => .error .unreadable
  | some entries => ofEntries empty entries

def recorded? (f : Facts) (identity : Identity) : Option (List (String × Fact)) :=
  (f.entries.find? (·.1 = identity)).map (·.2)

/-- The fact recorded under a key, be it an error. -/
def fact? (f : Facts) (t : Tree) (node : Nat) (key : String) : Option Fact := do
  SortedMap.find? key (← f.recorded? (Identity.ofNode t node))

/-- The value recorded under a key without an error. -/
def value? (f : Facts) (t : Tree) (node : Nat) (key : String) : Option Json :=
  match f.fact? t node key with
  | some ⟨result, _, none⟩ => some result
  | _ => none

/-- Whether the recorded value counts as true: all do but null and false. -/
def truthy? (f : Facts) (t : Tree) (node : Nat) (key : String) : Option Bool :=
  (f.value? t node key).map fun
    | .null => false
    | .bool b => b
    | _ => true

def ran (f : Facts) (t : Tree) (node : Nat) : Bool :=
  (f.recorded? (Identity.ofNode t node)).isSome

/-- A value is recorded under the key. -/
def present (f : Facts) (t : Tree) (node : Nat) (key : String) : Bool :=
  (f.value? t node key).isSome

end Facts
end SpecUpgrade
