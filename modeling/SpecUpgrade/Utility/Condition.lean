import SpecUpgrade.Text.Decimal

/-!
Conditions on texts, numbers and files, written as rows of words.
-/

namespace SpecUpgrade.Utility.Condition

inductive Kind where
  | unary
  | binary
  | joint
  | negation
  | bracket
  deriving DecidableEq, Repr

def kind? (word : String) : Option Kind :=
  if ["-r", "-w", "-x", "-e", "-f", "-d", "-c", "-b", "-p", "-u", "-g", "-k", "-s", "-t", "-z",
      "-n", "-h", "-L", "-O", "-G", "-S"].contains word then some .unary
  else if ["=", "!=", "<", ">", "-eq", "-ne", "-ge", "-gt", "-le", "-lt", "-nt", "-ot",
      "-ef"].contains word then some .binary
  else if word == "-a" || word == "-o" then some .joint
  else if word == "!" then some .negation
  else if word == "(" || word == ")" then some .bracket
  else none

/-- What is known about files: of one by a letter, and of two by a word. -/
structure Knowledge where
  one : Char → String → Bool
  two : String → String → String → Bool

/-- How a program says what is wrong. -/
structure Dialect where
  argument : String → String
  number : String → String
  extra : String → String
  bracket : String

def shellDialect : Dialect where
  argument word := word ++ ": argument expected"
  number word := "Illegal number: " ++ word
  extra word := word ++ ": unexpected operator"
  bracket := "closing paren expected"

def programDialect : Dialect where
  argument word := "missing argument after '" ++ word ++ "'"
  number word := "invalid integer '" ++ word ++ "'"
  extra word := "extra argument '" ++ word ++ "'"
  bracket := "')' expected"

/-- The operator that a row starts with. A word is an operand where no operator makes sense. -/
def operator? (ws : List String) : Option Kind :=
  match ws with
  | [] => none
  | w :: rest =>
    match kind? w, rest with
    | some .unary, [] => none
    | some .unary, next :: _ :: _ => if kind? next = some .binary then none else some .unary
    | some .bracket, [] => if w == "(" then none else some .bracket
    | k, _ => k

def compareNumbers (op : String) (a b : Int) : Bool :=
  match op with
  | "-eq" => a == b
  | "-ne" => a != b
  | "-ge" => decide (b ≤ a)
  | "-gt" => decide (b < a)
  | "-le" => decide (a ≤ b)
  | _ => decide (a < b)

def binary (d : Dialect) (k : Knowledge) (a op b : String) : Except String Bool :=
  if op == "=" then .ok (a == b)
  else if op == "!=" then .ok (a != b)
  else if op == "<" then .ok (decide (a < b))
  else if op == ">" then .ok (decide (b < a))
  else if op == "-nt" || op == "-ot" || op == "-ef" then .ok (k.two op a b)
  else
    match Decimal.whole? a, Decimal.whole? b with
    | some m, some n => .ok (compareNumbers op m n)
    | none, _ => .error (d.number a)
    | _, none => .error (d.number b)

def unary (k : Knowledge) (op operand : String) : Bool :=
  if op == "-z" then operand == ""
  else if op == "-n" then operand != ""
  else k.one ((op.toList.drop 1).headD 'e') operand

mutual

/-- Alternatives. The row that comes back starts with the last word that has been taken. -/
def readEither (d : Dialect) (k : Knowledge) :
    Nat → List String → Except String (Bool × List String)
  | 0, ws => .ok (false, ws)
  | fuel + 1, ws => do
    let (a, ws) ← readBoth d k fuel ws
    match ws with
    | _ :: "-o" :: rest =>
      let (b, ws) ← readEither d k fuel rest
      return (a || b, ws)
    | ws => return (a, ws)

def readBoth (d : Dialect) (k : Knowledge) :
    Nat → List String → Except String (Bool × List String)
  | 0, ws => .ok (false, ws)
  | fuel + 1, ws => do
    let (a, ws) ← readNegated d k fuel ws
    match ws with
    | _ :: "-a" :: rest =>
      let (b, ws) ← readBoth d k fuel rest
      return (a && b, ws)
    | ws => return (a, ws)

def readNegated (d : Dialect) (k : Knowledge) :
    Nat → List String → Except String (Bool × List String)
  | 0, ws => .ok (false, ws)
  | fuel + 1, ws => do
    match ws with
    | "!" :: rest =>
      match rest with
      | [] => return (true, ws)
      | rest =>
        let (a, ws) ← readNegated d k fuel rest
        return (!a, ws)
    | ws => readPrimary d k fuel ws

def readPrimary (d : Dialect) (k : Knowledge) :
    Nat → List String → Except String (Bool × List String)
  | 0, ws => .ok (false, ws)
  | fuel + 1, ws => do
    match ws with
    | [] => return (false, [])
    | w :: rest =>
      match operator? ws with
      | some .bracket =>
        if w == "(" then
          match rest with
          | ")" :: _ => return (false, rest)
          | rest =>
            let (a, ws) ← readEither d k fuel rest
            match ws with
            | _ :: ")" :: after => return (a, ")" :: after)
            | _ => throw d.bracket
        else return (w != "", ws)
      | some .unary =>
        match rest with
        | operand :: after => return (unary k w operand, operand :: after)
        | [] => throw (d.argument w)
      | _ =>
        match rest with
        | op :: after =>
          if kind? op = some .binary then
            match after with
            | b :: after => return (← binary d k w op b, b :: after)
            | [] => throw (d.argument op)
          else return (w != "", ws)
        | [] => return (w != "", ws)

end

def evalRow (d : Dialect) (k : Knowledge) (ws : List String) : Except String Bool := do
  let (a, ws) ← readEither d k (4 * ws.length + 8) ws
  match ws with
  | w :: _ :: _ => throw (d.extra w)
  | _ => return a

/-- The value of a condition. Rows of up to four words are read by their number first. -/
def eval (d : Dialect) (k : Knowledge) : Nat → List String → Except String Bool
  | 0, ws => evalRow d k ws
  | fuel + 1, ws =>
    match ws with
    | [] => .ok false
    | [a, op, b] =>
      if kind? op = some .binary then binary d k a op b
      else if a == "(" && b == ")" then eval d k fuel [op]
      else if a == "!" then (eval d k fuel [op, b]).map (!·)
      else evalRow d k ws
    | [a, b, c, e] =>
      if a == "(" && e == ")" then eval d k fuel [b, c]
      else if a == "!" then (eval d k fuel [b, c, e]).map (!·)
      else evalRow d k ws
    | ws => evalRow d k ws

end SpecUpgrade.Utility.Condition
