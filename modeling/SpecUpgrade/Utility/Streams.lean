import SpecUpgrade.Utility.Basic

/-!
Programs that hand on what they read, all of it or a part: from the start, from the end, or to
several places.
-/

namespace SpecUpgrade.Utility

open Shell

/-- Goes through the lines of an open file as they come, each with its line break, until `step` says
that it is enough. -/
def eachLine {σ : Type} (o : Nat) (step : σ → List Char → Run (σ × Bool)) (start : σ) :
    Run (Except FileError σ) := do
  let rec lines : List (List Char) → σ → Run (σ × Bool)
    | [], s => return (s, true)
    | line :: rest, s => do
      let (s, more) ← step s line
      if more then lines rest s else return (s, false)
  let rec go : Nat → List Char → σ → Run (Except FileError σ)
    | 0, _, s => return .ok s
    | fuel + 1, kept, s => do
      match ← Run.readOpened o id with
      | .error e => return .error e
      | .ok [] =>
        if kept.isEmpty then return .ok s else return .ok (← step s kept).1
      | .ok cs =>
        Run.count
        let all := linesOf (kept ++ cs)
        let (whole, rest) := match all.getLast? with
          | some last => if last.getLast? == some '\n' then (all, []) else (all.dropLast, last)
          | none => ([], [])
        let (s, more) ← lines whole s
        if more then go fuel rest s else return .ok s
  go Run.maxRepeats [] start

/-- Opens a file to be read; a dash is what the program is given. -/
def openInput (path : String) : Run (Except FileError Nat) := do
  if path == "-" then
    match ← Run.descriptor? 0 with
    | some o => return .ok o
    | none => return .error .badDescriptor
  else Run.openFile .read path

/-! Handing on. -/

def padLeft (width : Nat) (text : String) : List Char :=
  List.replicate (width - text.length) ' ' ++ text.toList

/-- Copies an open file to the output as it comes. -/
def copyThrough (name : String) (o : Nat) : Run (Except FileError Bool) := do
  let rec go : Nat → Run (Except FileError Bool)
    | 0 => return .ok true
    | fuel + 1 => do
      match ← Run.readOpened o id with
      | .error e => return .error e
      | .ok [] => return .ok true
      | .ok cs =>
        Run.count
        if ← put name cs then go fuel else return .ok false
  go Run.maxRepeats

def cat : Program := fun words =>
  withOptions ⟨"nu", [("number", 'n')], true, 1⟩ words fun name g => do
  let mut status := 0
  let mut number := 0
  for path in inputsOf g.operands do
    match ← openInput path with
    | .error e =>
      complainOf name path e
      status := 1
    | .ok o =>
      if g.has 'n' then
        let step (n : Nat) (line : List Char) : Run (Nat × Bool) := do
          return (n + 1, ← put name (padLeft 6 (Nat.repr (n + 1)) ++ ['\t'] ++ line))
        match ← eachLine o step number with
        | .error e =>
          complainOf name path e
          status := 1
        | .ok n => number := n
      else
        match ← copyThrough name o with
        | .error e =>
          complainOf name path e
          status := 1
        | .ok fine => if !fine then return 1
  return status

def tee : Program := fun words =>
  withOptions ⟨"a", [("append", 'a')], true, 1⟩ words fun name g => do
  let mut status := 0
  let mut targets : List (String × Nat) := []
  for path in g.operands do
    match ← Run.openFile (if g.has 'a' then .append else .write) path with
    | .ok o =>
      let n ← Run.firstFree
      Run.setDescriptor n (some o)
      targets := targets ++ [(path, n)]
    | .error e =>
      complainOf name path e
      status := 1
  let rec go : Nat → Run Nat
    | 0 => return 0
    | fuel + 1 => do
      match ← Run.readSome 0 Run.pipeCapacity with
      | .error e =>
        complain name ("read error: " ++ e.reason)
        return 1
      | .ok [] => return 0
      | .ok cs =>
        let _ ← put name cs
        for (_, n) in targets do
          let _ ← Run.writeTo n cs
        go fuel
  let s ← go Run.maxRepeats
  return max status s

/-- Repeats a line until nobody reads any more. -/
def yes : Program := fun words =>
  withOptions ⟨"", [], true, 1⟩ words fun name g => do
  let line := (if g.operands.isEmpty then "y" else String.intercalate " " g.operands).toList ++ ['\n']
  let block := (List.replicate (8192 / line.length + 1) line).flatten
  let rec go : Nat → Run Nat
    | 0 => return 0
    | fuel + 1 => do
      Run.count
      if ← put name block then go fuel else return 1
  go Run.maxRepeats

/-! Parts. -/

/-- Options as numbers stand for themselves: an old way to ask for so many lines. -/
def modernize (words : List String) : List String :=
  words.flatMap fun (w : String) =>
    match w.toList with
    | '-' :: c :: rest =>
      if (c :: rest).all Char.isDigit then ["-n", String.ofList (c :: rest)] else [w]
    | _ => [w]

def heading (isFirst : Bool) (path : String) : List Char :=
  ((if isFirst then "" else "\n") ++ "==> " ++ (if path == "-" then "standard input" else path) ++
    " <==\n").toList

/-- Prints so many lines of an open file, and leaves what comes after them where that can be done. -/
def headLines (name : String) (o n : Nat) : Run (Except FileError Unit) := do
  let isFile := match (← Run.machine).opened[o]? with
    | some ⟨.file _, _, _, _, _⟩ => true
    | some ⟨.removed _, _, _, _, _⟩ => true
    | _ => false
  if isFile then
    let rec go : Nat → Run (Except FileError Unit)
      | 0 => return .ok ()
      | k + 1 => do
        match ← Run.readOpened o Run.throughBreak with
        | .error e => return .error e
        | .ok [] => return .ok ()
        | .ok cs =>
          let _ ← put name cs
          go k
    go n
  else if n == 0 then return .ok ()
  else
    let step (left : Nat) (line : List Char) : Run (Nat × Bool) := do
      let fine ← put name line
      return (left - 1, fine && decide (1 < left))
    match ← eachLine o step n with
    | .ok _ => return .ok ()
    | .error e => return .error e

def headBytes (name : String) (o : Nat) : Nat → Nat → Run (Except FileError Unit)
  | 0, _ => return .ok ()
  | fuel + 1, n => do
    if n == 0 then return .ok ()
    else
      match ← Run.readOpened o (·.take n) with
      | .error e => return .error e
      | .ok [] => return .ok ()
      | .ok cs =>
        let _ ← put name cs
        headBytes name o fuel (n - cs.length)

def head : Program := fun words =>
  let words := words.take 1 ++ modernize (words.drop 1)
  withOptions ⟨"c:n:q", [("bytes", 'c'), ("lines", 'n'), ("quiet", 'q')], true, 1⟩ words
    fun name g => do
  let bytes := g.last? ['c', 'n'] == some 'c'
  let text := (g.text? (if bytes then 'c' else 'n')).getD "10"
  let (fromEnd, digits) := if text.startsWith "-" then (true, (text.drop 1).toString)
    else if text.startsWith "+" then (false, (text.drop 1).toString) else (false, text)
  match digits.toNat? with
  | none =>
    complain name ("invalid number of " ++ (if bytes then "bytes: " else "lines: ") ++
      Quote.word digits)
    return 1
  | some n =>
    let paths := inputsOf g.operands
    let headed := decide (1 < paths.length) && !g.has 'q'
    let mut status := 0
    let mut isFirst := true
    for path in paths do
      match ← openInput path with
      | .error e =>
        complain name ("cannot open " ++ Quote.name path ++ " for reading: " ++ e.reason)
        status := 1
      | .ok o =>
        if headed then
          let _ ← put name (heading isFirst path)
        isFirst := false
        let result ← if fromEnd then do
            match ← Run.readAllOpened o with
            | .error e => pure (Except.error e)
            | .ok cs =>
              let kept := if bytes then cs.take (cs.length - n)
                else let lines := linesOf cs; (lines.take (lines.length - n)).flatten
              let _ ← put name kept
              pure (Except.ok ())
          else if bytes then headBytes name o Run.maxRepeats n
          else headLines name o n
        match result with
        | .ok () => pure ()
        | .error e =>
          complain name ("error reading " ++ Quote.name path ++ ": " ++ e.reason)
          status := 1
    return status

def tail : Program := fun words =>
  let words := words.take 1 ++ modernize (words.drop 1)
  withOptions ⟨"c:n:qf", [("bytes", 'c'), ("lines", 'n'), ("quiet", 'q'), ("follow", 'f')], true, 1⟩
    words fun name g => do
  let bytes := g.last? ['c', 'n'] == some 'c'
  let text := (g.text? (if bytes then 'c' else 'n')).getD "10"
  let (fromStart, digits) := if text.startsWith "+" then (true, (text.drop 1).toString)
    else if text.startsWith "-" then (false, (text.drop 1).toString) else (false, text)
  match digits.toNat? with
  | none =>
    complain name ("invalid number of " ++ (if bytes then "bytes: " else "lines: ") ++
      Quote.word digits)
    return 1
  | some n =>
    let paths := inputsOf g.operands
    let headed := decide (1 < paths.length) && !g.has 'q'
    let mut status := 0
    let mut isFirst := true
    for path in paths do
      match ← openInput path with
      | .error e =>
        complain name ("cannot open " ++ Quote.name path ++ " for reading: " ++ e.reason)
        status := 1
      | .ok o =>
        if headed then
          let _ ← put name (heading isFirst path)
        isFirst := false
        match ← Run.readAllOpened o with
        | .error e =>
          complain name ("error reading " ++ Quote.name path ++ ": " ++ e.reason)
          status := 1
        | .ok cs =>
          let lines := linesOf cs
          let kept := match bytes, fromStart with
            | true, true => cs.drop (n - 1)
            | true, false => cs.drop (cs.length - n)
            | false, true => (lines.drop (n - 1)).flatten
            | false, false => (lines.drop (lines.length - n)).flatten
          let _ ← put name kept
    if g.has 'f' then Run.pause .never
    return status

end SpecUpgrade.Utility
