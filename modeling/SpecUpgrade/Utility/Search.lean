import SpecUpgrade.Text.Regex
import SpecUpgrade.Utility.Files
import SpecUpgrade.Utility.Streams

/-!
Searching files for lines that match.
-/

namespace SpecUpgrade.Utility

open Shell

/-- How lines are looked for and how those that are found are shown. -/
structure Search where
  patterns : List Regex.Pattern
  inverted : Bool
  counted : Bool
  listed : Bool
  listedOthers : Bool
  quiet : Bool
  silent : Bool
  partsOnly : Bool
  numbered : Bool
  most : Option Nat
  named : Bool := false

structure SearchState where
  line : Nat := 0
  found : Nat := 0
  isBinary : Bool := false

namespace Search

/-- The first match of some patterns in a line, the longest one at its place. -/
def first? (patterns : List Regex.Pattern) (before after : List Char) :
    Option (Regex.Place × Regex.Found) :=
  patterns.foldl (fun best r =>
    match best, r.findFrom before after with
    | none, found => found
    | some b, none => some b
    | some b, some f =>
      let (bs, fs) := (b.1.before.length, f.1.before.length)
      if fs < bs || (fs == bs && f.2.1.after.length < b.2.1.after.length) then some f
      else some b) none

def selects (s : Search) (line : List Char) : Bool :=
  s.patterns.any (·.isIn line) != s.inverted

/-- The parts of a line that match and are not empty. -/
def parts (s : Search) : Nat → List Char → List Char → List (List Char)
  | 0, _, _ => []
  | fuel + 1, before, after =>
    match first? s.patterns before after with
    | none => []
    | some (start, (stop, _)) =>
      let part := start.after.take (start.after.length - stop.after.length)
      if part.isEmpty then
        match start.after with
        | [] => []
        | c :: rest => parts s fuel (c :: start.before) rest
      else part :: parts s fuel stop.before stop.after

def heading (s : Search) (path : String) (line : Nat) : List Char :=
  (if s.named then path.toList ++ [':'] else []) ++
    (if s.numbered then (Nat.repr line).toList ++ [':'] else [])

def showsLines (s : Search) : Bool := !(s.quiet || s.counted || s.listed || s.listedOthers)

def tell (s : Search) (name path : String) (line : Nat) (text : List Char) : Run Unit := do
  let shown := if !s.partsOnly then [text]
    else if s.inverted then [] else s.parts (text.length + 1) [] text
  let cs := shown.flatMap fun part => s.heading path line ++ part ++ ['\n']
  if !cs.isEmpty then
    let _ ← put name cs

def step (s : Search) (name path : String) (st : SearchState) (whole : List Char) :
    Run (SearchState × Bool) := do
  Run.count
  let text := withoutBreak whole
  let next := { st with line := st.line + 1 }
  if !s.selects text then return (next, true)
  else
    let next := { next with found := st.found + 1 }
    if st.isBinary && s.showsLines then
      let _ ← put name ("grep: " ++ path ++ ": binary file matches\n").toList
      return (next, false)
    else
      if s.showsLines then s.tell name path next.line text
      let isEnough := (s.most.map fun m => decide (m ≤ next.found)).getD false
      return (next, !(s.quiet || s.listed || s.listedOthers || isEnough))

/-- Takes lines until it is enough. -/
def steps (s : Search) (name path : String) : List (List Char) → SearchState → Run SearchState
  | [], st => return st
  | line :: rest, st => do
    let (st, more) ← s.step name path st line
    if more then steps s name path rest st else return st

/-- Looks through an open file. Whether its lines are text is seen from all of it, unless they come
one by one. -/
def searchOpened (s : Search) (name path : String) (o : Nat) :
    Run (Except FileError SearchState) := do
  let isPipe := match (← Run.machine).opened[o]? with
    | some ⟨.pipe _, _, _, _, _⟩ => true
    | _ => false
  if s.most == some 0 then return .ok {}
  else if isPipe then
    eachLine o (fun (st : SearchState) line =>
      s.step name path { st with isBinary := st.isBinary || line.contains (Char.ofNat 0) } line) {}
  else
    match ← Run.readAllOpened o with
    | .error e => return .error e
    | .ok cs =>
      return .ok (← s.steps name path (linesOf cs) { isBinary := cs.contains (Char.ofNat 0) })

/-- Looks through a file and says what the options ask for; whether lines were found, or none if the
file cannot be read. -/
def searchFile (s : Search) (name path shown : String) : Run (Option Bool) := do
  let failed (e : FileError) : Run (Option Bool) := do
    if !s.silent then complainOf name shown e
    return none
  match ← openInput path with
  | .error e => failed e
  | .ok o =>
    match ← s.searchOpened name shown o with
    | .error e => failed e
    | .ok st =>
      let found := 0 < st.found
      if !s.quiet then
        if s.counted then
          let _ ← put name ((if s.named then shown.toList ++ [':'] else []) ++
            (Nat.repr st.found).toList ++ ['\n'])
        if (s.listed && found) || (s.listedOthers && !found) then
          let _ ← put name (shown.toList ++ ['\n'])
      return some found

end Search

def filesBelow : Nat → String → FileTree → List String
  | 0, _, _ => []
  | fuel + 1, path, .dir entries =>
    entries.flatMap fun (entry, t) =>
      let entry := Byte.spread entry
      filesBelow fuel (if path == "" then entry else below path entry) t
  | _ + 1, path, .file _ _ => [path]
  | _ + 1, _, _ => []

def searchUsage (name : String) : String :=
  "Usage: " ++ name ++ " [OPTION]... PATTERNS [FILE]...\n" ++ hint name

def searchOptions : Known where
  letters := "EFGe:iyvwxcLlqsonhHrm:"
  long := [("extended-regexp", 'E'), ("fixed-strings", 'F'), ("basic-regexp", 'G'),
    ("regexp", 'e'), ("ignore-case", 'i'), ("invert-match", 'v'), ("word-regexp", 'w'),
    ("line-regexp", 'x'), ("count", 'c'), ("files-without-match", 'L'),
    ("files-with-matches", 'l'), ("quiet", 'q'), ("silent", 'q'), ("no-messages", 's'),
    ("only-matching", 'o'), ("line-number", 'n'), ("no-filename", 'h'), ("with-filename", 'H'),
    ("recursive", 'r'), ("max-count", 'm')]
  status := 2

/-- A pattern by the letter of the way it is written in. -/
def searchPattern (g : Given) (letter : Char) (text : String) : Except String Regex.Pattern := do
  let x : Regex.Dialect := { extended := letter == 'E', foldsCase := g.has 'i' || g.has 'y' }
  let r ← if letter == 'F' then pure (Regex.literal x text) else Regex.read x text
  return if g.has 'x' then r.asWhole else if g.has 'w' then r.asWord else r

/-- Signs for repetition that have nothing to repeat. -/
def strayRepeats (text : String) : List Char :=
  let rec go : Bool → List Char → List Char
    | _, [] => []
    | _, '\\' :: _ :: rest => go false rest
    | first, c :: rest =>
      if first && (c == '*' || c == '+' || c == '?') then c :: go true rest
      else go (c == '(' || c == '|' || (first && c == '^')) rest
  go true text.toList

/-- Looks through files for patterns; the status says whether lines were found. -/
def searchAll (s : Search) (name : String) (g : Given) (operands : List String) : Run Nat := do
  let recursive := g.has 'r'
  let operands := if !operands.isEmpty then operands else if recursive then [""] else ["-"]
  let mut found := false
  let mut failed := false
  for path in operands do
    let directory? ← match ← Run.look (if path == "" then "." else path) with
      | .ok (_, .dir entries) => pure (if path == "-" then none else some (FileTree.dir entries))
      | _ => pure none
    let files := match directory? with
      | some t => if recursive then filesBelow maxLevels path t else [path]
      | none => [path]
    let named := match g.last? ['h', 'H'] with
      | some c => c == 'H'
      | none => 1 < operands.length || (recursive && directory?.isSome)
    for file in files do
      if !(s.quiet && found) then
        let shown := if file == "-" then "(standard input)" else file
        match ← { s with named := named }.searchFile name file shown with
        | some b => found := found || b
        | none => failed := true
  return if s.quiet && found then 0 else if failed then 2 else if found then 0 else 1

def grep : Program := fun words => do
  let name := words.headD ""
  let arguments := words.drop 1
  let size := arguments.foldl (fun n (w : String) => n + w.length + 1) 1
  match readGiven searchOptions size [] arguments {} with
  | .error message =>
    complain name message
    Run.printError (searchUsage name)
    return 2
  | .ok g =>
    let letters := (g.options.filter fun o => "EFG".toList.contains o.1).map (·.1)
    let given := (g.options.filter (·.1 == 'e')).map (·.2)
    if (g.text? 'm').map String.toNat? == some none then
      complain name "invalid max count"
      return 2
    else if letters.any (some · != letters.head?) then
      complain name "conflicting matchers specified"
      return 2
    else if given.isEmpty && g.operands.isEmpty then
      Run.printError (searchUsage name)
      return 2
    else
      let operands := if given.isEmpty then g.operands.drop 1 else g.operands
      let texts := (if given.isEmpty then g.operands.take 1 else given).flatMap (·.splitOn "\n")
      let letter := letters.headD 'G'
      if letter == 'E' then
        for text in texts do
          for c in strayRepeats text do
            complain name ("warning: " ++ String.singleton c ++ " at start of expression")
      match texts.mapM (searchPattern g letter) with
      | .error message =>
        complain name message
        return 2
      | .ok patterns =>
        let s : Search := {
          patterns := patterns
          inverted := g.has 'v'
          counted := g.has 'c' && !(g.has 'l' || g.has 'L')
          listed := g.last? ['l', 'L'] == some 'l'
          listedOthers := g.last? ['l', 'L'] == some 'L'
          quiet := g.has 'q'
          silent := g.has 's'
          partsOnly := g.has 'o'
          numbered := g.has 'n'
          most := (g.text? 'm').bind String.toNat? }
        searchAll s name g operands

end SpecUpgrade.Utility
