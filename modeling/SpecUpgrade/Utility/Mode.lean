/-!
Permissions as they are written: three octal digits, or clauses that say for whom what is given,
taken away or set.
-/

namespace SpecUpgrade.Utility.Mode

/-- A clause: for whom, the sign, and what. With `runnable` running is meant only for what someone
may run already, and `copied` takes what another has. -/
structure Clause where
  who : List Char
  sign : Char
  bits : Nat
  runnable : Bool
  copied : Option Char
  deriving Repr

inductive Change where
  | absolute (mode : Nat)
  | symbolic (clauses : List Clause)
  deriving Repr

/-- The bits of one class from three bits. -/
def spread (who : Char) (bits : Nat) : Nat :=
  match who with
  | 'u' => bits * 64
  | 'g' => bits * 8
  | _ => bits

def bitsOf (who : Char) (mode : Nat) : Nat :=
  match who with
  | 'u' => mode / 64 % 8
  | 'g' => mode / 8 % 8
  | _ => mode % 8

def readLetters : List Char → Nat → Bool → Nat × Bool × List Char
  | 'r' :: rest, bits, x => readLetters rest (Nat.lor bits 4) x
  | 'w' :: rest, bits, x => readLetters rest (Nat.lor bits 2) x
  | 'x' :: rest, bits, x => readLetters rest (Nat.lor bits 1) x
  | 'X' :: rest, bits, _ => readLetters rest bits true
  | 's' :: rest, bits, x => readLetters rest bits x
  | 't' :: rest, bits, x => readLetters rest bits x
  | rest, bits, x => (bits, x, rest)

def isSign (c : Char) : Bool := c == '+' || c == '-' || c == '='

def readActions (who : List Char) : Nat → List Char → List Clause → Option (List Clause)
  | 0, _, _ => none
  | _ + 1, [], done => some done.reverse
  | fuel + 1, c :: rest, done =>
    if !isSign c then none
    else
      match rest with
      | d :: after =>
        if d == 'u' || d == 'g' || d == 'o' then
          readActions who fuel after (⟨who, c, 0, false, some d⟩ :: done)
        else
          let (bits, x, after) := readLetters rest 0 false
          readActions who fuel after (⟨who, c, bits, x, none⟩ :: done)
      | [] => some (⟨who, c, 0, false, none⟩ :: done).reverse

def readClause (text : String) : Option (List Clause) :=
  let cs := text.toList
  let who := cs.takeWhile fun c => "ugoa".toList.contains c
  match cs.drop who.length with
  | [] => none
  | rest => readActions who (rest.length + 1) rest []

/-- Reads a mode or a change of one. -/
def read? (text : String) : Option Change :=
  let cs := text.toList
  if cs.isEmpty then none
  else if cs.all fun c => decide ('0' ≤ c) && decide (c ≤ '7') then
    let n := cs.foldl (fun n c => n * 8 + (c.toNat - '0'.toNat)) 0
    if n < 4096 * 2 then some (.absolute n) else none
  else ((text.splitOn ",").mapM readClause).map fun cs => .symbolic cs.flatten

/-- The classes that a clause is for; one that names none is for all but what the mask holds back. -/
def Clause.classes (c : Clause) : List Char :=
  if c.who.isEmpty || c.who.contains 'a' then ['u', 'g', 'o'] else c.who

def Clause.apply (c : Clause) (mask : Nat) (isDir : Bool) (mode : Nat) : Nat :=
  let x := if c.runnable && (isDir || mode % 2 == 1 || mode / 8 % 2 == 1 || mode / 64 % 2 == 1)
    then 1 else 0
  let bits := match c.copied with
    | some who => bitsOf who mode
    | none => Nat.lor c.bits x
  c.classes.foldl (fun mode who =>
    let wanted := if c.who.isEmpty then Nat.land bits (7 - bitsOf who mask) else bits
    let old := bitsOf who mode
    let new := match c.sign with
      | '+' => Nat.lor old wanted
      | '-' => Nat.land old (7 - wanted)
      | _ => wanted
    mode - spread who old + spread who new) mode

def Change.apply (c : Change) (mask : Nat) (isDir : Bool) (mode : Nat) : Nat :=
  match c with
  | .absolute new => new
  | .symbolic clauses => clauses.foldl (fun mode c => c.apply mask isDir mode) mode

end SpecUpgrade.Utility.Mode
