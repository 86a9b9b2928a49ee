import SpecUpgrade.Edit
import SpecUpgrade.Rule.Basic
import SpecUpgrade.Tree.Call

/-!
Where rules apply. A match is a call of the shape that a rule converts, with the parts that its
edits need.
-/

namespace SpecUpgrade

/-- A call that a rule claims. `tail` reaches from the end of the receiver to the end of the method
name. -/
inductive Match where
  | should (node subject : Nat) (tail : Span) (negative : Bool)
  | stub (node object : Nat) (tail : Span) (messages : Bool)
  | beClose (node expected delta : Nat)
  deriving DecidableEq, Repr

namespace Match

def rule : Match → Rule
  | should _ _ _ _ => .should
  | stub _ _ _ _ => .stub
  | beClose _ _ _ => .beClose

def node : Match → Nat
  | should node _ _ _ => node
  | stub node _ _ _ => node
  | beClose node _ _ => node

/-- Whether an expectation is negative, by the name of its method. -/
def polarity? : String → Option Bool
  | "should" => some false
  | "should_not" => some true
  | _ => none

/-- An expectation with exactly one matcher. -/
def should? (t : Tree) (id : Nat) : Option Match := do
  guard (t.kind id == "send")
  let negative ← polarity? (← t.methodName? id)
  let subject ← t.receiver? id
  guard ((t.arguments id).length == 1)
  let tail ← t.tail? id
  return .should id subject tail negative

/-- Whether a stub names several messages at once, by the kind of its argument. -/
def messages? : String → Option Bool
  | "sym" | "str" | "dsym" => some false
  | "hash" | "kwargs" => some true
  | _ => none

/-- A stub of one message or of several with their values. -/
def stub? (t : Tree) (id : Nat) : Option Match := do
  guard (t.kind id == "send")
  let name ← t.methodName? id
  guard (name == "stub" || name == "stub!")
  let object ← t.receiver? id
  match t.arguments id with
  | [arg] =>
    let messages ← messages? (t.kind arg)
    let tail ← t.tail? id
    return .stub id object tail messages
  | _ => none

/-- A comparison of floats without a receiver. -/
def beClose? (t : Tree) (id : Nat) : Option Match := do
  guard (t.kind id == "send")
  guard (t.methodName? id == some "be_close")
  guard (t.receiver? id).isNone
  match t.arguments id with
  | [expected, delta] => return .beClose id expected delta
  | _ => none

def ofRule? (t : Tree) (id : Nat) : Rule → Option Match
  | .should => should? t id
  | .stub => stub? t id
  | .beClose => beClose? t id

/-- The match of the first enabled rule that claims a node. -/
def at? (t : Tree) (enabled : List Rule) (id : Nat) : Option Match :=
  enabled.findSome? (ofRule? t id)

/-- All matches in a tree, in pre-order. -/
def all (t : Tree) (enabled : List Rule) : List Match := t.nodesInOrder.filterMap (at? t enabled)

/-- The call that makes a block a value, for a subject such as `lambda { }`, `proc { }` or `-> { }`
whose block takes no parameters. -/
def constructor? (t : Tree) (subject : Nat) : Option Nat := do
  guard (t.kind subject == "block")
  let call ← t.childNode? subject 0
  let params ← t.childNode? subject 1
  guard (t.childIds params).isEmpty
  let names := [some "lambda", some "proc"]
  if t.kind call == "lambda"
      || (t.kind call == "send" && (t.receiver? call).isNone && names.contains (t.methodName? call))
  then some call
  else none

/-- The edits of an expectation. A block that is only made to be expected of is passed as the block
of `expect`. -/
def shouldEdits (t : Tree) (subject : Nat) (tail : Span) (negative : Bool) : List Edit :=
  let verb := if negative then "not_to" else "to"
  match constructor? t subject with
  | some call => [.replace (t.range call) "expect", .replace tail ("." ++ verb)]
  | none => [.insertBefore (t.range subject) "expect(", .replace tail (")." ++ verb)]

def edits (t : Tree) : Match → List Edit
  | should _ subject tail negative => shouldEdits t subject tail negative
  | stub _ object tail messages =>
    [.insertBefore (t.range object) "allow(",
      .replace tail (").to " ++ if messages then "receive_messages" else "receive")]
  | beClose node expected delta =>
    [.replace (t.range node) ("be_within(" ++ t.text delta ++ ").of(" ++ t.text expected ++ ")")]

end Match
end SpecUpgrade
