import SpecUpgrade.Shell.Pattern
import SpecUpgrade.Utility.Files

/-!
Searches for files below directories.
-/

namespace SpecUpgrade.Utility.Find

open Shell

inductive Test where
  | always
  | name (pattern : Pattern) (folded whole : Bool)
  | kind (letter : Char)
  | empty
  | print
  | delete
  | negated (t : Test)
  | both (a b : Test)
  | either (a b : Test)

/-- Something is done in a test, so that files are not printed by themselves. -/
def Test.acts : Test → Bool
  | .print => true
  | .delete => true
  | .negated t => t.acts
  | .both a b => a.acts || b.acts
  | .either a b => a.acts || b.acts
  | _ => false

def Test.deletes : Test → Bool
  | .delete => true
  | .negated t => t.deletes
  | .both a b => a.deletes || b.deletes
  | .either a b => a.deletes || b.deletes
  | _ => false

/-- What holds for the whole search. -/
structure Extent where
  least : Nat := 0
  most : Option Nat := none
  insideFirst : Bool := false

abbrev Reader := StateT (List String × Extent) (Except String)

def patternOf (text : String) : Pattern := text.toList.map (·, false)

def argument (word : String) : Reader String := do
  let (ws, x) ← get
  match ws with
  | a :: rest =>
    set (rest, x)
    return a
  | [] => throw ("missing argument to \x60" ++ word ++ "'")

def numberArgument (word : String) : Reader Nat := do
  let text ← argument word
  match text.toNat? with
  | some n => return n
  | none =>
    throw ("Expected a positive decimal integer argument to " ++ word ++ ", but got " ++
      Quote.word text)

mutual

def readEither : Nat → Reader Test
  | 0 => return .always
  | fuel + 1 => do
    let a ← readBoth fuel
    let (ws, x) ← get
    match ws with
    | "-o" :: rest =>
      set (rest, x)
      return .either a (← readEither fuel)
    | _ => return a

def readBoth : Nat → Reader Test
  | 0 => return .always
  | fuel + 1 => do
    let a ← readOne fuel
    let (ws, x) ← get
    match ws with
    | [] => return a
    | w :: rest =>
      if w == "-o" || w == ")" then return a
      else
        if w == "-a" then set (rest, x)
        return .both a (← readBoth fuel)

def readOne : Nat → Reader Test
  | 0 => return .always
  | fuel + 1 => do
    let (ws, x) ← get
    match ws with
    | [] => return .always
    | w :: rest =>
      set (rest, x)
      match w with
      | "!" => return .negated (← readOne fuel)
      | "-not" => return .negated (← readOne fuel)
      | "(" =>
        let t ← readEither fuel
        let (ws, x) ← get
        match ws with
        | ")" :: rest =>
          set (rest, x)
          return t
        | _ => throw ("invalid expression; I was expecting to find a ')' somewhere but did not " ++
            "see one.")
      | "-name" => return .name (patternOf (← argument w)) false false
      | "-iname" => return .name (patternOf (← argument w)) true false
      | "-path" => return .name (patternOf (← argument w)) false true
      | "-type" =>
        match (← argument w).toList with
        | [c] =>
          if "bcdpfls".toList.contains c then return .kind c
          else throw ("Unknown argument to -type: " ++ String.singleton c)
        | _ => throw "Arguments to -type should contain only one letter"
      | "-empty" => return .empty
      | "-print" => return .print
      | "-delete" => return .delete
      | "-maxdepth" =>
        let n ← numberArgument w
        modify fun (ws, x) => (ws, { x with most := some n })
        return .always
      | "-mindepth" =>
        let n ← numberArgument w
        modify fun (ws, x) => (ws, { x with least := n })
        return .always
      | w =>
        if w.startsWith "-" then throw ("unknown predicate \x60" ++ w ++ "'")
        else throw ("paths must precede expression: \x60" ++ w ++ "'")

end

def lowered (p : Pattern) : Pattern := p.map fun (c, q) => (c.toLower, q)

def matchesName (p : Pattern) (folded : Bool) (text : String) : Bool :=
  if folded then (lowered p).matches text.toLower else p.matches text

/-- Tests a file and does what the test asks for: whether it holds, and the status so far. -/
def check (name path : String) (t : FileTree) : Test → Nat → Run (Bool × Nat)
  | .always, status => return (true, status)
  | .name p folded whole, status =>
    return (matchesName p folded (if whole then path else lastName path), status)
  | .kind letter, status =>
    return (letter == (match t with
      | .file _ _ => 'f'
      | .dir _ => 'd'
      | .link _ => 'l'
      | .device _ => 'c'), status)
  | .empty, status =>
    return (match t with
      | .file [] _ => true
      | .dir [] => true
      | _ => false, status)
  | .print, status => do
    let _ ← put name (path.toList ++ ['\n'])
    return (true, status)
  | .delete, status => do
    if path == "." then return (true, status)
    else
      match ← if t.isDir then removeDirectory path else removeFile path with
      | .ok () => return (true, status)
      | .error e =>
        complain name ("cannot delete " ++ Quote.name path ++ ": " ++ e.reason)
        return (false, 1)
  | .negated a, status => do
    let (holds, status) ← check name path t a status
    return (!holds, status)
  | .both a b, status => do
    let (holds, status) ← check name path t a status
    if holds then check name path t b status else return (false, status)
  | .either a b, status => do
    let (holds, status) ← check name path t a status
    if holds then return (true, status) else check name path t b status

/-- Goes through what is at a path and below it; `fuel` bounds the depth. -/
def visit (name : String) (x : Extent) (test : Test) : Nat → Nat → String → Nat → Run Nat
  | 0, _, _, status => return status
  | fuel + 1, depth, path, status => do
    match ← Run.lookEntry path with
    | .error e =>
      complain name (Quote.name path ++ ": " ++ e.reason)
      return 1
    | .ok (_, t) =>
      let own (status : Nat) : Run Nat :=
        if x.least ≤ depth then (·.2) <$> check name path t test status else return status
      let status ← if x.insideFirst then pure status else own status
      let names := match t with
        | .dir es =>
          if (x.most.map fun m => decide (depth < m)).getD true then
            es.map fun e => Byte.spread e.1
          else []
        | _ => []
      let status ← inside fuel depth path names status
      if x.insideFirst then own status else return status
termination_by fuel => (fuel, 0)
where
  inside (fuel depth : Nat) (path : String) : List String → Nat → Run Nat
    | [], status => return status
    | n :: rest, status => do
      inside fuel depth path rest (← visit name x test fuel (depth + 1) (below path n) status)
  termination_by names => (fuel, names.length + 1)

end Find

def find : Program := fun words => do
  let name := words.headD ""
  let arguments := words.drop 1
  let isStart (w : String) : Bool := !(w.startsWith "-" || w == "!" || w == "(" || w == ")")
  let starts := arguments.takeWhile isStart
  let expression := arguments.drop starts.length
  match (Find.readEither (4 * expression.length + 8)).run (expression, {}) with
  | .error message =>
    complain name message
    return 1
  | .ok (test, (rest, x)) =>
    match rest with
    | w :: _ =>
      complain name (if w == ")" then "you have too many ')'"
        else "paths must precede expression: \x60" ++ w ++ "'")
      return 1
    | [] =>
      let test := if test.acts then test else .both test .print
      let x := if test.deletes then { x with insideFirst := true } else x
      let mut status := 0
      for start in if starts.isEmpty then ["."] else starts do
        status ← Find.visit name x test maxLevels 0 start status
      return status

end SpecUpgrade.Utility
