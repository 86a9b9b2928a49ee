/-!
The rules by which deprecated spec code is converted.
-/

namespace SpecUpgrade

/-- `x.should m` becomes `expect(x).to m`, `x.stub(:m)` becomes `allow(x).to receive(:m)`, and
`be_close(e, d)` becomes `be_within(d).of(e)`. -/
inductive Rule where
  | should
  | stub
  | beClose
  deriving DecidableEq, Repr

namespace Rule

def all : List Rule := [should, stub, beClose]

def name : Rule → String
  | should => "should"
  | stub => "stub"
  | beClose => "be_close"

def ofName? (name : String) : Option Rule := all.find? (·.name == name)

def unknownMessage (name : String) : String :=
  "unknown rule '" ++ name ++ "' (expected one of: should, stub, be_close)"

/-- The rules of a list of names, or the first name that is no rule. -/
def ofNames : List String → Except String (List Rule)
  | [] => .ok []
  | name :: names =>
    match ofName? name with
    | none => .error name
    | some rule => (ofNames names).map (rule :: ·)

end Rule
end SpecUpgrade
