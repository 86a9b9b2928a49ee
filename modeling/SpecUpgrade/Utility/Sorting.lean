import SpecUpgrade.Utility.Streams

/-!
Programs that put lines in order, and those that work on lines in order.
-/

namespace SpecUpgrade.Utility

open Shell

/-! Orders. -/

/-- The number that a text starts with: whether it is negative, its digits before the point without
leading zeros, and those after it without trailing ones. -/
def leadingNumber (cs : List Char) : Bool × List Char × List Char :=
  let cs := cs.dropWhile fun c => c == ' ' || c == '\t'
  let (negative, cs) := match cs with
    | '-' :: rest => (true, rest)
    | cs => (false, cs)
  let whole := cs.takeWhile Char.isDigit
  let fraction := match cs.drop whole.length with
    | '.' :: rest => rest.takeWhile Char.isDigit
    | _ => []
  let whole := whole.dropWhile (· == '0')
  let fraction := (fraction.reverse.dropWhile (· == '0')).reverse
  (negative && !(whole.isEmpty && fraction.isEmpty), whole, fraction)

def compareLists : List Char → List Char → Ordering
  | [], [] => .eq
  | [], _ => .lt
  | _, [] => .gt
  | a :: as, b :: bs => if a < b then .lt else if b < a then .gt else compareLists as bs

def compareNumbers (a b : List Char) : Ordering :=
  let (na, wa, fa) := leadingNumber a
  let (nb, wb, fb) := leadingNumber b
  let size := (compare wa.length wb.length).then ((compareLists wa wb).then (compareLists fa fb))
  match na, nb with
  | false, false => size
  | true, true => size.swap
  | true, false => .lt
  | false, true => .gt

/-- Compares two lines as texts or by the numbers that they start with; lines with the same number are
compared as texts if that is wanted. -/
def compareKeys (numeric lastResort : Bool) (a b : List Char) : Ordering :=
  if numeric then
    (compareNumbers a b).then (if lastResort then compareLists a b else .eq)
  else compareLists a b

/-- Drops all but the first of lines that count as equal. -/
def withoutRepeats (same : List Char → List Char → Bool) : List (List Char) → List (List Char)
  | a :: b :: rest =>
    if same a b then withoutRepeats same (a :: rest) else a :: withoutRepeats same (b :: rest)
  | lines => lines
termination_by lines => lines.length

def sort : Program := fun words =>
  withOptions ⟨"nru", [("numeric-sort", 'n'), ("reverse", 'r'), ("unique", 'u')], true, 2⟩ words
    fun name g => do
  let mut blocks : List (List (List Char)) := []
  for path in inputsOf g.operands do
    match ← readInput path with
    | .ok cs => blocks := bareLines cs :: blocks
    | .error e =>
      let what := if e = .isDirectory then "read failed: " else "cannot read: "
      complain name (what ++ Quote.bare path ++ ": " ++ e.reason)
      return 2
  let order := compareKeys (g.has 'n') (!g.has 'u')
  let sorted := blocks.reverse.flatten.mergeSort fun a b =>
    (if g.has 'r' then (order a b).swap else order a b) != .gt
  let result := if g.has 'u' then withoutRepeats (fun a b => order a b == .eq) sorted else sorted
  return if ← put name (joinLines result) then 0 else 2

/-! Repeated lines. -/

def runsOf : List (List Char) → List (List (List Char))
  | [] => []
  | a :: rest =>
    match runsOf rest with
    | (b :: run) :: runs => if a == b then (a :: b :: run) :: runs else [a] :: (b :: run) :: runs
    | runs => [a] :: runs

def uniq : Program := fun words =>
  withOptions ⟨"cdu", [("count", 'c'), ("repeated", 'd'), ("unique", 'u')], true, 1⟩ words
    fun name g => do
  match g.operands with
  | _ :: extra :: _ => misuse name ("extra operand " ++ Quote.word extra) 1
  | operands =>
    let path := operands.headD "-"
    match ← readInput path with
    | .error e =>
      complainOf name path e
      return 1
    | .ok cs =>
      let shown := (runsOf (bareLines cs)).flatMap fun run =>
        let many := decide (1 < run.length)
        let line := run.headD []
        if (g.has 'd' && !many) || (g.has 'u' && many) then []
        else if g.has 'c' then [padLeft 7 (Nat.repr run.length) ++ [' '] ++ line]
        else [line]
      putStatus name (joinLines shown)

end SpecUpgrade.Utility
