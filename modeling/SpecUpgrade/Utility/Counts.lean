import SpecUpgrade.Utility.Streams

/-!
Programs that count: lines, words and bytes of files, and rows of numbers.
-/

namespace SpecUpgrade.Utility

open Shell

/-! Counts of files. -/

/-- Lines, words, characters, bytes, and the longest line. -/
structure Counts where
  lines : Nat := 0
  words : Nat := 0
  bytes : Nat := 0
  longest : Nat := 0

def Counts.of (cs : List Char) : Counts :=
  let isBlank (c : Char) : Bool := c == ' ' || (9 ≤ c.toNat && c.toNat ≤ 13)
  let rec go : List Char → Bool → Nat → Counts → Counts
    | [], _, width, n => { n with longest := max n.longest width }
    | c :: rest, inside, width, n =>
      let blank := isBlank c
      let words := if !blank && !inside then n.words + 1 else n.words
      let lines := if c == '\n' then n.lines + 1 else n.lines
      let longest := if c == '\n' then max n.longest width else n.longest
      let width := if c == '\n' then 0 else if c == '\t' then (width / 8 + 1) * 8 else width + 1
      go rest (!blank) width ⟨lines, words, n.bytes + 1, longest⟩
  go cs false 0 {}

def Counts.add (a b : Counts) : Counts :=
  ⟨a.lines + b.lines, a.words + b.words, a.bytes + b.bytes, max a.longest b.longest⟩

/-- The size of a file that stands at a path or is the input, if it is an ordinary file. -/
def plainSize? (path : String) : Run (Option Nat) := do
  if path == "-" then
    match ← Run.descriptor? 0 with
    | none => return none
    | some o =>
      let m ← Run.machine
      match m.opened[o]? with
      | some ⟨.file place, _, _, _, _⟩ => return some (m.contentOf (.file place)).length
      | some ⟨.removed store, _, _, _, _⟩ => return some (m.contentOf (.removed store)).length
      | _ => return none
  else
    match ← Run.look path with
    | .ok (_, .file content _) => return some content.length
    | .ok _ => return none
    | .error _ => return some 0

def wc : Program := fun words =>
  withOptions ⟨"clLmw", [("bytes", 'c'), ("chars", 'm'), ("lines", 'l'), ("words", 'w'),
    ("max-line-length", 'L')], true, 1⟩ words fun name g => do
  let g := if g.options.isEmpty then { g with options := [('l', ""), ('w', ""), ('c', "")] } else g
  let columns (n : Counts) : List Nat :=
    (if g.has 'l' then [n.lines] else []) ++ (if g.has 'w' then [n.words] else []) ++
      (if g.has 'm' then [n.bytes] else []) ++ (if g.has 'c' then [n.bytes] else []) ++
      (if g.has 'L' then [n.longest] else [])
  let paths := inputsOf g.operands
  let single := paths.length == 1 && (columns {}).length == 1
  let mut total := 0
  let mut least := 1
  for path in paths do
    match ← plainSize? path with
    | some n => total := total + n
    | none => least := 7
  let width := if single then 1 else max least (Nat.repr total).length
  let row (n : Counts) (path : Option String) : List Char :=
    let cells := (columns n).map fun k => String.ofList (padLeft width (Nat.repr k))
    (String.intercalate " " cells ++ (path.map (" " ++ ·)).getD "" ++ "\n").toList
  let mut sum : Counts := {}
  let mut status := 0
  for path in paths do
    match ← readInput path with
    | .ok cs =>
      let n := Counts.of cs
      sum := sum.add n
      let _ ← put name (row n (if g.operands.isEmpty then none else some path))
    | .error e =>
      complainOf name path e
      status := 1
      if e = .isDirectory then
        let _ ← put name (row {} (some path))
  if 1 < paths.length then
    let _ ← put name (row sum (some "total"))
  return status

/-! Rows of numbers. -/

def rowFrom : Nat → Int → Int → Int → List Int
  | 0, _, _, _ => []
  | fuel + 1, n, step, last =>
    if (0 < step && last < n) || (step < 0 && n < last) then []
    else n :: rowFrom fuel (n + step) step last

def seq : Program := fun words => do
  let name := words.headD ""
  match words.drop 1 with
  | [] => misuse name "missing operand" 1
  | _ :: _ :: _ :: extra :: _ => misuse name ("extra operand " ++ Quote.word extra) 1
  | operands =>
    match operands.find? fun t => t.toInt?.isNone with
    | some text => misuse name ("invalid floating point argument: " ++ Quote.word text) 1
    | none =>
      let (first, step, last) : Int × Int × Int := match operands.filterMap String.toInt? with
        | [last] => (1, 1, last)
        | [first, last] => (first, 1, last)
        | [first, step, last] => (first, step, last)
        | _ => (1, 1, 1)
      if step == 0 then
        misuse name ("invalid Zero increment value: " ++ Quote.word ((operands[1]?).getD "")) 1
      else
        putStatus name (joinLines ((rowFrom 10000000 first step last).map fun n =>
          (toString n).toList))

end SpecUpgrade.Utility
