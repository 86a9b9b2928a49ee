import SpecUpgrade.Json.Value

/-!
What is written out as JSON: values without binary64 numbers, with the members of a record in
their given order. The spread form takes a line for every item, indented by two spaces a level.
-/

namespace SpecUpgrade

inductive Document where
  | null
  | bool (b : Bool)
  | int (n : Int)
  | str (s : String)
  | list (items : List Document)
  | record (members : List (String × Document))
  deriving Inhabited, Repr

namespace Document

def hexChar (n : Nat) : Char := if n < 10 then Char.ofNat (48 + n) else Char.ofNat (87 + n)

/-- How a character stands in a string literal: quotes, backslashes and control characters are
escaped, everything else stands for itself. -/
def escapeChar (c : Char) : List Char :=
  match c with
  | '"' => ['\\', '"']
  | '\\' => ['\\', '\\']
  | '\x08' => ['\\', 'b']
  | '\x0c' => ['\\', 'f']
  | '\n' => ['\\', 'n']
  | '\r' => ['\\', 'r']
  | '\t' => ['\\', 't']
  | c =>
    if c.toNat < 0x20 then ['\\', 'u', '0', '0', hexChar (c.toNat / 16), hexChar (c.toNat % 16)]
    else [c]

def quote (s : String) : List Char := '"' :: (s.toList.flatMap escapeChar ++ ['"'])

def indent (level : Nat) : List Char := List.replicate (2 * level) ' '

mutual

/-- The spread form of a value whose closing bracket stands at `level`. -/
def spread (level : Nat) : Document → List Char
  | .null => "null".toList
  | .bool b => (if b then "true" else "false").toList
  | .int n => (toString n).toList
  | .str s => quote s
  | .list items =>
    match items with
    | [] => ['[', ']']
    | items => '[' :: (spreadItems (level + 1) items ++ '\n' :: (indent level ++ [']']))
  | .record members =>
    match members with
    | [] => ['\x7b', '\x7d']
    | members => '\x7b' :: (spreadMembers (level + 1) members ++ '\n' :: (indent level ++ ['\x7d']))

def spreadItems (level : Nat) : List Document → List Char
  | [] => []
  | [item] => '\n' :: (indent level ++ spread level item)
  | item :: items => '\n' :: (indent level ++ spread level item ++ ',' :: spreadItems level items)

def spreadMembers (level : Nat) : List (String × Document) → List Char
  | [] => []
  | [(key, value)] => '\n' :: (indent level ++ quote key ++ ':' :: ' ' :: spread level value)
  | (key, value) :: members =>
    '\n' :: (indent level ++ quote key ++ ':' :: ' ' :: spread level value
      ++ ',' :: spreadMembers level members)

end

/-- The spread form, ended by a line feed. -/
def page (d : Document) : String := String.ofList (spread 0 d ++ ['\n'])

mutual

def toJson : Document → Json
  | .null => .null
  | .bool b => .bool b
  | .int n => .num (.int n)
  | .str s => .str s
  | .list items => .arr (itemsToJson items)
  | .record members => .obj (SortedMap.ofList (membersToJson members))

def itemsToJson : List Document → List Json
  | [] => []
  | item :: items => toJson item :: itemsToJson items

def membersToJson : List (String × Document) → List (String × Json)
  | [] => []
  | (key, value) :: members => (key, toJson value) :: membersToJson members

end

end Document
end SpecUpgrade
