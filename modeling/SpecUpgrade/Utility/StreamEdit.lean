import SpecUpgrade.Utility.Files
import SpecUpgrade.Utility.StreamScript
import SpecUpgrade.Utility.Streams

/-!
Editing of a stream of lines by a script: each line goes through all instructions and is then printed.
-/

namespace SpecUpgrade.Utility.StreamEdit

open Shell

/-- A line on its way through a script, what the script has printed and whether the last line of that
lacks its end, and the places of the instructions whose range has begun. -/
structure Editing where
  line : Nat := 0
  isLast : Bool := false
  space : List Char := []
  ended : Bool := true
  active : List Nat := []
  out : List Char := []
  isOpen : Bool := false

/-- Prints a line; one before it that has no end gets one. -/
def Editing.emit (s : Editing) (cs : List Char) (ends : Bool) : Editing :=
  { s with
    out := s.out ++ (if s.isOpen then ['\n'] else []) ++ cs ++ (if ends then ['\n'] else [])
    isOpen := !ends }

def Editing.matches (s : Editing) : Address → Bool
  | .line n => s.line == n
  | .last => s.isLast
  | .matching r => r.isIn s.space

/-- The instruction at a place of the script is for this line. -/
def Editing.selects (s : Editing) (place : Nat) : Selector → Bool × Editing
  | .all => (true, s)
  | .one a => (s.matches a, s)
  | .range first stop =>
    let left := { s with active := s.active.filter (· != place) }
    if s.active.contains place then
      match stop with
      | .line n => (decide (s.line ≤ n), if n ≤ s.line then left else s)
      | a => (true, if s.matches a then left else s)
    else if s.matches first then
      let isOver := match stop with
        | .line n => decide (n ≤ s.line)
        | _ => false
      (true, if isOver then s else { s with active := place :: s.active })
    else (false, s)

def assemble (whole : List Char) (groups : Regex.Groups) (pieces : List Piece) : List Char :=
  pieces.flatMap fun
    | .text cs => cs
    | .group 0 => whole
    | .group n => ((groups.find? (·.1 == n)).map (·.2)).getD []

/-- Puts new texts in the place of matches; the number of those that are left alone comes down with
each match, and `touching` is true right after one. -/
def substituteFrom (s : Substitution) :
    Nat → Nat → Bool → List Char → List Char → List Char → List Char × Bool
  | 0, _, _, _, after, done => (done.reverse ++ after, false)
  | fuel + 1, spared, touching, before, after, done =>
    match s.pattern.findFrom before after with
    | none => (done.reverse ++ after, false)
    | some (start, (stop, groups)) =>
      let skipped := after.take (after.length - start.after.length)
      let whole := start.after.take (start.after.length - stop.after.length)
      let done := skipped.reverse ++ done
      let goOn (spared : Nat) (done : List Char) : List Char × Bool :=
        if whole.isEmpty then
          match stop.after with
          | [] => (done.reverse, false)
          | c :: rest => substituteFrom s fuel spared false (c :: stop.before) rest (c :: done)
        else substituteFrom s fuel spared true stop.before stop.after done
      if whole.isEmpty && touching && skipped.isEmpty then goOn spared done
      else if 1 < spared then goOn (spared - 1) (whole.reverse ++ done)
      else
        let done := (assemble whole groups s.pieces).reverse ++ done
        if s.all then ((goOn 1 done).1, true)
        else (done.reverse ++ stop.after, true)

/-- How a line leaves the script: to be printed, or not, and the script may end with it. -/
inductive Exit where
  | printed
  | dropped
  | quit (status : Nat)

/-- Takes a line through the instructions from a place on. -/
def walk : Nat → List Instruction → Editing → Editing × Exit
  | _, [], s => (s, .printed)
  | place, i :: is, s =>
    let (chosen, s) := s.selects place i.selector
    if chosen == i.negated then walk (place + 1) is s
    else
      match i.action with
      | .delete => (s, .dropped)
      | .quit status => (s, .quit status)
      | .number => walk (place + 1) is (s.emit (Nat.repr s.line).toList true)
      | .print => walk (place + 1) is (s.emit s.space s.ended)
      | .substitute sub =>
        let (text, changed) :=
          substituteFrom sub (2 * s.space.length + 4) sub.number false [] s.space []
        if changed then
          let s := { s with space := text }
          walk (place + 1) is (if sub.prints then s.emit s.space s.ended else s)
        else walk (place + 1) is s

/-- Takes the next line through the script. The status is there if the script ends with it. -/
def cycle (is : List Instruction) (quiet isLast : Bool) (line : List Char) (s : Editing) :
    Editing × Option Nat :=
  let start := { s with
    line := s.line + 1, isLast := isLast, space := withoutBreak line
    ended := line.getLast? == some '\n' }
  match walk 0 is start with
  | (s, .dropped) => (s, none)
  | (s, .printed) => (if quiet then s else s.emit s.space s.ended, none)
  | (s, .quit status) => (if quiet then s else s.emit s.space s.ended, some status)

/-- What becomes of the lines of a file. Those behind the end of the script stay as they are. -/
def editAll (is : List Instruction) (quiet : Bool) : List (List Char) → Editing → Editing × Option Nat
  | [], s => (s, none)
  | line :: rest, s =>
    match cycle is quiet rest.isEmpty line s with
    | (s, none) => editAll is quiet rest s
    | (s, some status) =>
      (rest.foldl (fun s line => s.emit (withoutBreak line) (line.getLast? == some '\n')) s,
        some status)

/-- Edits a file where it stands; with a suffix what it held is kept beside it. -/
def editInPlace (name : String) (is : List Instruction) (quiet : Bool) (suffix : String) :
    List String → Nat → Run Nat
  | [], status => return status
  | path :: rest, status => do
    match ← Run.look path with
    | .error e =>
      complain name ("can't read " ++ path ++ ": " ++ e.reason)
      editInPlace name is quiet suffix rest 2
    | .ok (place, .file content mode) =>
      let (s, ended) := editAll is quiet (linesOf (Byte.chars content)) {}
      Run.updateMachine fun m =>
        let m := m.forget place
        let files := .set (.file (Byte.bytes s.out) mode) m.files place
        let kept := place.dropLast ++ [place.getLastD "" ++ suffix]
        { m with files := if suffix == "" then files else .set (.file content mode) files kept }
      match ended with
      | some status => return status
      | none => editInPlace name is quiet suffix rest status
    | .ok _ =>
      complain name ("couldn't edit " ++ path ++ ": not a regular file")
      editInPlace name is quiet suffix rest 4

def blockSize : Nat := 4096

/-- A stream on its way: the line that waits until it is known whether more come, and the status once
the script has ended. -/
structure Passage where
  editing : Editing := {}
  waiting : Option (List Char) := none
  ended : Option Nat := none

/-- Takes the line that waits through the script. -/
def advance (name : String) (is : List Instruction) (quiet isLast : Bool) (p : Passage) :
    Run Passage := do
  match p.waiting with
  | none => return p
  | some line =>
    Run.count
    let (s, ended) := cycle is quiet isLast line p.editing
    if isLast || ended.isSome || blockSize ≤ s.out.length then
      if !s.out.isEmpty then
        let _ ← put name s.out
      return ⟨{ s with out := [] }, none, ended⟩
    else return ⟨s, none, ended⟩

/-- Edits what files hold, one after the other, and prints it. -/
def editStream (name : String) (is : List Instruction) (quiet : Bool) :
    List String → Nat → Passage → Run Nat
  | [], status, p => do
    let p ← advance name is quiet true p
    return p.ended.getD status
  | path :: rest, status, p => do
    match ← openInput path with
    | .error e =>
      complain name ("can't read " ++ path ++ ": " ++ e.reason)
      editStream name is quiet rest 2 p
    | .ok o =>
      let step (p : Passage) (line : List Char) : Run (Passage × Bool) := do
        let p ← advance name is quiet false p
        return ({ p with waiting := some line }, p.ended.isNone)
      match ← eachLine o step p with
      | .error e =>
        complain name ("read error on " ++ path ++ ": " ++ e.reason)
        editStream name is quiet rest 4 p
      | .ok p =>
        match p.ended with
        | some status => return status
        | none => editStream name is quiet rest status p

/-- The part of a script that a place is in, and where in that. -/
def whereIs : Nat → List (List Char) → Nat → String
  | _, [], _ => ""
  | number, part :: rest, taken =>
    if taken ≤ part.length || rest.isEmpty then
      "-e expression #" ++ Nat.repr number ++ ", char " ++ Nat.repr taken ++ ": "
    else whereIs (number + 1) rest (taken - part.length - 1)

end StreamEdit

open StreamEdit Shell

def sed : Program := fun words => do
  let name := words.headD ""
  let arguments := words.drop 1
  let known : Known := ⟨"ne:Eri;", [("quiet", 'n'), ("silent", 'n'), ("expression", 'e'),
    ("regexp-extended", 'E'), ("in-place", 'i')], true, 1⟩
  let usage : Run Nat := do
    Run.printError ("Usage: " ++ name ++
      " [OPTION]... \x7bscript-only-if-no-other-script\x7d [input-file]...\n")
    return 1
  let size := arguments.foldl (fun n (w : String) => n + w.length + 1) 1
  match readGiven known size [] arguments {} with
  | .error message =>
    complain name message
    usage
  | .ok g =>
    let given := (g.options.filter (·.1 == 'e')).map (·.2.toList)
    if given.isEmpty && g.operands.isEmpty then usage
    else
      let parts := if given.isEmpty then [(g.operands.headD "").toList] else given
      let paths := inputsOf (if given.isEmpty then g.operands.drop 1 else g.operands)
      let text := (parts.intersperse ['\n']).flatten
      let x : Regex.Dialect := { extended := g.has 'E' || g.has 'r', strict := true }
      match read x text with
      | .error fault =>
        complain name (whereIs 1 parts fault.taken ++ fault.message)
        return 1
      | .ok is =>
        let quiet := g.has 'n' || text.take 3 == ['#', 'n', '\n'] || text == ['#', 'n']
        match g.text? 'i' with
        | some suffix => editInPlace name is quiet suffix paths 0
        | none => editStream name is quiet paths 0 {}

end SpecUpgrade.Utility
