import SpecUpgrade.Tree.Call

/-!
Lexical scopes of spec files. Modules, classes, method definitions and blocks open a scope; what
scope a block opens depends on the call that it is attached to.
-/

namespace SpecUpgrade

inductive Scope where
  | moduleBody
  | classBody
  | singletonClass
  | method
  | singletonMethod
  | plainBlock
  | exampleGroup
  | exampleBody
  | helper
  | hook
  | configuration
  deriving DecidableEq, Repr

namespace Scope

def name : Scope → String
  | moduleBody => "module"
  | classBody => "class"
  | singletonClass => "singleton_class"
  | method => "method"
  | singletonMethod => "singleton_method"
  | plainBlock => "plain_block"
  | exampleGroup => "example_group"
  | exampleBody => "example"
  | helper => "helper"
  | hook => "hook"
  | configuration => "configuration"

def all : List Scope :=
  [moduleBody, classBody, singletonClass, method, singletonMethod, plainBlock, exampleGroup,
   exampleBody, helper, hook, configuration]

def ofName? (name : String) : Option Scope := all.find? (·.name == name)

/-- Examples, helpers and hooks are blocks like any other for the question what code runs in. -/
def isBlockLike : Scope → Bool
  | plainBlock | exampleBody | helper | hook => true
  | _ => false

def isClassLike : Scope → Bool
  | classBody | singletonClass => true
  | _ => false

def exampleGroupMethods : List String :=
  ["describe", "context", "feature", "example_group", "shared_examples", "shared_context",
   "shared_examples_for", "share_examples_for", "xdescribe", "xcontext", "xfeature", "fdescribe",
   "fcontext", "ffeature"]

def exampleMethods : List String :=
  ["it", "specify", "example", "scenario", "its", "focus", "fit", "fspecify", "fexample",
   "fscenario", "xit", "xspecify", "xexample", "xscenario", "skip", "pending"]

def helperMethods : List String := ["let", "let!", "subject", "subject!"]

def hookMethods : List String :=
  ["before", "after", "around", "prepend_before", "append_before", "prepend_after", "append_after"]

/-- The scope of the block of a call without a receiver. -/
def ofMethod (method : String) : Scope :=
  if method ∈ exampleGroupMethods then exampleGroup
  else if method ∈ exampleMethods then exampleBody
  else if method ∈ helperMethods then helper
  else if method ∈ hookMethods then hook
  else plainBlock

/-- The scope of the block of a call. A call with a receiver has a plain block, whatever its name,
unless it is `RSpec.configure`. -/
def ofCall (t : Tree) (call : Nat) : Scope :=
  let method := (t.methodName? call).getD ""
  match t.receiver? call with
  | some r => if t.isTopLevelConst r "RSpec" && method == "configure" then configuration
    else plainBlock
  | none => ofMethod method

def ofBlock (t : Tree) (block : Nat) : Scope :=
  match t.childNode? block 0 with
  | some call => if t.isCall call then ofCall t call else plainBlock
  | none => plainBlock

/-- The scope that a node opens, if it opens one. -/
def ofNode? (t : Tree) (id : Nat) : Option Scope :=
  match t.kind id with
  | "module" => some moduleBody
  | "class" => some classBody
  | "sclass" => some singletonClass
  | "def" => some method
  | "defs" => some singletonMethod
  | "block" => some (ofBlock t id)
  | "numblock" => some (ofBlock t id)
  | _ => none

end Scope
end SpecUpgrade
