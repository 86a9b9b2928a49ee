import SpecUpgrade.Shell.Pattern
import SpecUpgrade.Utility.Streams

/-!
Programs that work on the characters and fields of lines.
-/

namespace SpecUpgrade.Utility

open Shell

/-! Parts of lines. -/

/-- A range of positions, from one on; the last may be open. -/
abbrev Range := Nat × Option Nat

def inRanges (ranges : List Range) (n : Nat) : Bool :=
  ranges.any fun (a, b) => decide (a ≤ n) && (b.map fun b => decide (n ≤ b)).getD true

def readRanges (fields : Bool) (text : String) : Except String (List Range) :=
  let zero := if fields then "fields are numbered from 1"
    else "byte/character positions are numbered from 1"
  let wrong (t : String) : String :=
    (if fields then "invalid field value " else "invalid byte/character position ") ++ Quote.word t
  let number (t : String) : Except String Nat :=
    if t.isEmpty || !t.toList.all Char.isDigit then .error (wrong t)
    else
      match t.toNat? with
      | some 0 => .error zero
      | some n => .ok n
      | none => .error (wrong t)
  (text.splitOn ",").flatMap (fun (t : String) => (t.splitOn " ").filter (· != "")) |>.mapM fun t =>
    match t.splitOn "-" with
    | [a] => do
      let n ← number a
      return (n, some n)
    | ["", ""] => .error "invalid range with no endpoint: -"
    | ["", b] => do return (1, some (← number b))
    | [a, ""] => do return (← number a, none)
    | [a, b] => do
      let m ← number a
      let n ← number b
      if n < m then .error "invalid decreasing range" else return (m, some n)
    | _ => .error (wrong t)

def splitAt (c : Char) (cs : List Char) : List (List Char) :=
  let rec go : List Char → List Char → List (List Char)
    | [], piece => [piece.reverse]
    | d :: rest, piece => if d == c then piece.reverse :: go rest [] else go rest (d :: piece)
  go cs []

def joinWith (separator : List Char) : List (List Char) → List Char
  | [] => []
  | [x] => x
  | x :: rest => x ++ separator ++ joinWith separator rest

def cut : Program := fun words =>
  withOptions ⟨"b:c:d:f:s", [("bytes", 'b'), ("characters", 'c'), ("delimiter", 'd'),
    ("fields", 'f'), ("only-delimited", 's')], true, 1⟩ words fun name g => do
  let lists := g.options.filter fun o => ['b', 'c', 'f'].contains o.1
  match lists with
  | [] => misuse name "you must specify a list of bytes, characters, or fields" 1
  | [(kind, text)] =>
    let fields := kind == 'f'
    let delimiter := ((g.text? 'd').getD "\t").toList
    if fields && 1 < delimiter.length then misuse name "the delimiter must be a single character" 1
    else if !fields && g.has 'd' then
      misuse name "an input delimiter may be specified only when operating on fields" 1
    else
      match readRanges fields text with
      | .error message => misuse name message 1
      | .ok ranges =>
        let d := delimiter.headD (Char.ofNat 0)
        let line (cs : List Char) : Option (List Char) :=
          if fields then
            if !cs.contains d then (if g.has 's' then none else some cs)
            else
              let parts := (splitAt d cs).zipIdx.filter fun (_, i) => inRanges ranges (i + 1)
              some (joinWith [d] (parts.map (·.1)))
          else some ((cs.zipIdx.filter fun (_, i) => inRanges ranges (i + 1)).map (·.1))
        let mut status := 0
        for path in inputsOf g.operands do
          match ← openInput path with
          | .error e =>
            complainOf name path e
            status := 1
          | .ok o =>
            let step (_ : Unit) (l : List Char) : Run (Unit × Bool) := do
              match line (withoutBreak l) with
              | some cs => return ((), ← put name (cs ++ ['\n']))
              | none => return ((), true)
            match ← eachLine o step () with
            | .ok () => pure ()
            | .error e =>
              complainOf name path e
              status := 1
        return status
  | _ => misuse name "only one list may be specified" 1

/-! Characters. -/

/-- A character that may be written by an escape, and what comes after it. -/
def setChar : List Char → Option (Char × List Char)
  | '\\' :: c :: rest =>
    match escaped? c with
    | some d => some (d, rest)
    | none =>
      if isOctal c then
        let ds := (c :: rest).take 3 |>.takeWhile isOctal
        let n := ds.foldl (fun n d => n * 8 + (d.toNat - '0'.toNat)) 0
        some (Char.ofNat (n % 256), (c :: rest).drop ds.length)
      else some (c, rest)
  | c :: rest => some (c, rest)
  | [] => none
where
  isOctal (c : Char) : Bool := decide ('0' ≤ c) && decide (c ≤ '7')
  escaped? : Char → Option Char
    | 'a' => some (Char.ofNat 7)
    | 'b' => some (Char.ofNat 8)
    | 'f' => some (Char.ofNat 12)
    | 'n' => some '\n'
    | 'r' => some '\r'
    | 't' => some '\t'
    | 'v' => some (Char.ofNat 11)
    | '\\' => some '\\'
    | _ => none

def allBytes : List Char := (List.range 256).map Char.ofNat

def readSet : Nat → List Char → Except String (List Char)
  | 0, _ => .ok []
  | _ + 1, [] => .ok []
  | fuel + 1, '[' :: ':' :: rest =>
    let name := rest.takeWhile fun c => c != ':'
    match rest.drop name.length with
    | ':' :: ']' :: after =>
      match classOf? (String.ofList name) with
      | some holds => do return allBytes.filter holds ++ (← readSet fuel after)
      | none => .error ("invalid character class " ++ Quote.word (String.ofList name))
    | _ => do return '[' :: (← readSet fuel (':' :: rest))
  | fuel + 1, cs =>
    match setChar cs with
    | none => .ok []
    | some (c, '-' :: rest) =>
      match setChar rest with
      | some (d, after) =>
        if d.toNat < c.toNat then
          .error ("range-endpoints of " ++ Quote.word (String.ofList [c, '-', d]) ++
            " are in reverse collating sequence order")
        else do
          let range := (List.range (d.toNat + 1 - c.toNat)).map fun k => Char.ofNat (c.toNat + k)
          return range ++ (← readSet fuel after)
      | none => .ok [c, '-']
    | some (c, rest) => do return c :: (← readSet fuel rest)

def squeeze (set : Char → Bool) : Option Char → List Char → List Char × Option Char
  | last, [] => ([], last)
  | last, c :: rest =>
    if set c && last == some c then squeeze set last rest
    else
      let (cs, last) := squeeze set (some c) rest
      (c :: cs, last)

def tr : Program := fun words =>
  withOptions ⟨"cds", [("complement", 'c'), ("delete", 'd'), ("squeeze-repeats", 's')], false, 1⟩
    words fun name g => do
  let deletes := g.has 'd'
  let squeezes := g.has 's'
  let more (message : String) : Run Nat := do
    complain name ("missing operand after " ++ Quote.word ((g.operands.getLast?).getD ""))
    Run.printError (message ++ "\n" ++ hint name)
    return 1
  match g.operands with
  | [] => misuse name "missing operand" 1
  | [_] =>
    if deletes && squeezes then
      more "Two strings must be given when both deleting and squeezing repeats."
    else if !deletes && !squeezes then more "Two strings must be given when translating."
    else run name g
  | [_, second] =>
    if deletes && !squeezes then
      complain name ("extra operand " ++ Quote.word second)
      Run.printError ("Only one string may be given when deleting without squeezing repeats.\n" ++
        hint name)
      return 1
    else run name g
  | _ :: _ :: extra :: _ => misuse name ("extra operand " ++ Quote.word extra) 1
where
  run (name : String) (g : Given) : Run Nat := do
    let deletes := g.has 'd'
    let squeezes := g.has 's'
    let text (i : Nat) : List Char := ((g.operands[i]?).getD "").toList
    match readSet ((text 0).length + 1) (text 0), readSet ((text 1).length + 1) (text 1) with
    | .error message, _ =>
      complain name message
      return 1
    | _, .error message =>
      complain name message
      return 1
    | .ok first, .ok set2 =>
      let set1 := if g.has 'c' then allBytes.filter fun c => !first.contains c else first
      let hasSecond := 1 < g.operands.length
      if hasSecond && !deletes && set2.isEmpty && !set1.isEmpty then
        complain name "when not truncating set1, string2 must be non-empty"
        return 1
      else
        let in1 := Array.ofFn fun (i : Fin 256) => set1.contains (Char.ofNat i.val)
        let in2 := Array.ofFn fun (i : Fin 256) => set2.contains (Char.ofNat i.val)
        let last := set2.getLast?
        let table := Array.ofFn fun (i : Fin 256) =>
          let c := Char.ofNat i.val
          let at? := (set1.zipIdx.filter fun (d, _) => d == c).getLast?
          match at? with
          | some (_, k) => (set2[k]?).getD (last.getD c)
          | none => c
        let is1 (c : Char) : Bool := in1.getD c.toNat false
        let is2 (c : Char) : Bool := in2.getD c.toNat false
        let change (cs : List Char) : List Char :=
          if deletes then cs.filter fun c => !is1 c
          else if hasSecond then cs.map fun c => table.getD c.toNat c
          else cs
        let squeezed (c : Char) : Bool := if hasSecond then is2 c else is1 c
        let rec go : Nat → Option Char → Run Nat
          | 0, _ => return 0
          | fuel + 1, before => do
            match ← Run.readSome 0 Run.pipeCapacity with
            | .error e =>
              complain name ("read error: " ++ e.reason)
              return 1
            | .ok [] => return 0
            | .ok cs =>
              Run.count
              let cs := change cs
              let (cs, after) := if squeezes then squeeze squeezed before cs else (cs, none)
              if ← put name cs then go fuel after else return 1
        go Run.maxRepeats none

end SpecUpgrade.Utility
