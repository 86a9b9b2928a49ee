/-!
TOML values, and the rules by which the lines of a document add to its tables. A table may be added
to in some ways and not in others, depending on how it came about.
-/

namespace SpecUpgrade

namespace Toml

/-- How a table came about. -/
inductive Origin where
  /-- A header names it. -/
  | header
  /-- A header names a table below it. -/
  | implied
  /-- A dotted key leads through it. -/
  | dotted
  /-- It is written in braces. -/
  | inline
  deriving DecidableEq, Repr

end Toml

/-- A float is given by its bits and a date by its text. -/
inductive Toml where
  | string (s : String)
  | integer (n : Int)
  | float (bits : UInt64)
  | boolean (b : Bool)
  | date (text : String)
  | array (items : List Toml)
  | table (origin : Toml.Origin) (members : List (String × Toml))
  | tables (items : List (List (String × Toml)))
  deriving Repr

namespace Toml

/-- A table that is being built, with its members in the order of their first mention. -/
structure Table where
  origin : Origin
  members : List (String × Toml)

namespace Table

def find? (t : Table) (key : String) : Option Toml :=
  (t.members.find? (·.1 == key)).map (·.2)

/-- Sets a member; a new one comes last. -/
def put (t : Table) (key : String) (value : Toml) : Table :=
  if (t.find? key).isSome then
    { t with members := t.members.map fun m => if m.1 == key then (key, value) else m }
  else { t with members := t.members ++ [(key, value)] }

def erase (t : Table) (key : String) : Table :=
  { t with members := t.members.filter (·.1 != key) }

def toml (t : Table) : Toml := .table t.origin t.members

/-- Changes the table at the end of a path, and makes the tables on the way that do not exist. A
path of a key may not lead through a table that has a header, and no path leads through a table in
braces. In a list of tables the path goes on in the last one. -/
def descend {α : Type} (dotted : Bool) (change : Table → Option (α × Table)) :
    List String → Table → Option (α × Table)
  | [], t => change t
  | key :: path, t =>
    match t.find? key with
    | none => do
      let (a, child) ← descend dotted change path ⟨if dotted then .dotted else .implied, []⟩
      return (a, t.put key child.toml)
    | some (.table origin members) =>
      if origin = .inline ∨ (dotted ∧ origin = .header) then none
      else do
        let (a, child) ← descend dotted change path ⟨origin, members⟩
        return (a, t.put key child.toml)
    | some (.tables items) =>
      match items.getLast? with
      | none => none
      | some last => do
        let (a, child) ← descend dotted change path ⟨.header, last⟩
        return (a, t.put key (.tables (items.dropLast ++ [child.members])))
    | some _ => none

/-- Adds a value under a path of keys. The table that takes it must be the one that the line stands
in or one that dotted keys made, and must not have the key. -/
def add (t : Table) (path : List String) (key : String) (value : Toml) : Option Table := do
  let ((), t) ← descend true (fun t =>
    if (t.origin = .dotted ↔ path = []) ∨ (t.find? key).isSome then none
    else some ((), t.put key value)) path t
  return t

end Table

/-- The place that a header names, and whether it starts one more table of a list. -/
structure Header where
  path : List String
  key : String
  listed : Bool

/-- A document of which some lines have been read: the finished tables and the one that the last
header has opened. Before the first header that is the root itself. -/
structure Draft where
  root : Table
  current : Table
  header : Option Header

namespace Draft

def start : Draft := ⟨⟨.header, []⟩, ⟨.header, []⟩, none⟩

/-- Adds a key and its value to the open table. -/
def add (d : Draft) (path : List String) (key : String) (value : Toml) : Option Draft := do
  return { d with current := ← d.current.add path key value }

/-- Puts the open table in its place. -/
def close (d : Draft) : Option Table :=
  match d.header with
  | none => some d.current
  | some h => do
    let ((), root) ← d.root.descend false (fun t =>
      if h.listed then
        match t.find? h.key with
        | none => some ((), t.put h.key (.tables [d.current.members]))
        | some (.tables items) => some ((), t.put h.key (.tables (items ++ [d.current.members])))
        | some _ => none
      else some ((), t.put h.key d.current.toml)) h.path
    return root

/-- Opens the table of a header. A table that is only implied so far may be opened; any other may
not be opened again. -/
def openTable (d : Draft) (h : Header) : Option Draft := do
  let root ← d.close
  if h.listed then return ⟨root, ⟨.header, []⟩, some h⟩
  let (members, root) ← root.descend false (fun t =>
    match t.find? h.key with
    | none => some ([], t)
    | some (.table .implied members) => some (members, t.erase h.key)
    | some _ => none) h.path
  return ⟨root, ⟨.header, members⟩, some h⟩

end Draft
end Toml
end SpecUpgrade
