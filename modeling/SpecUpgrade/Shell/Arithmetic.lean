import SpecUpgrade.Word

/-!
Sums of a shell: expressions over words of sixty-four bits with a sign. An assignment binds least
and to the right; the operand that decides nothing is not evaluated.
-/

namespace SpecUpgrade.Shell.Arithmetic

inductive Expr where
  | number (value : Int64)
  | named (name : String)
  | unary (op : Char) (operand : Expr)
  | binary (op : String) (left right : Expr)
  | both (left right : Expr)
  | either (left right : Expr)
  | choose (condition left right : Expr)
  | assign (name op : String) (value : Expr)

/-! Numbers. -/

def digit? (base : Nat) (c : Char) : Option Nat :=
  let d :=
    if c.isDigit then c.toNat - '0'.toNat
    else if c.isLower then c.toNat - 'a'.toNat + 10
    else if c.isUpper then c.toNat - 'A'.toNat + 10
    else base
  if d < base then some d else none

/-- The digits that a text starts with, as a number, and what comes after them. -/
def readDigits (base : Nat) : Nat → List Char → Nat × List Char
  | n, [] => (n, [])
  | n, c :: rest =>
    match digit? base c with
    | some d => readDigits base (n * base + d) rest
    | none => (n, c :: rest)

/-- A number whose base is given by how it starts. -/
def readNumber : List Char → Nat × List Char
  | '0' :: x :: c :: rest =>
    if (x == 'x' || x == 'X') && (digit? 16 c).isSome then readDigits 16 0 (c :: rest)
    else readDigits 8 0 ('0' :: x :: c :: rest)
  | '0' :: rest => readDigits 8 0 ('0' :: rest)
  | cs => readDigits 10 0 cs

def largest : Nat := Word.half64 - 1

/-- A number as it is written in a sum; one that is too large counts as the largest. -/
def clamp (n : Nat) : Int64 := Int64.ofInt (if n ≤ largest then n else largest)

def isBlank (c : Char) : Bool := c == ' ' || (9 ≤ c.toNat && c.toNat ≤ 13)

/-- The number that a whole text is, with a sign and blanks around it or not. -/
def numberOf? (text : String) : Option Int :=
  let cs := text.toList.dropWhile isBlank
  let (negative, cs) := match cs with
    | '-' :: rest => (true, rest)
    | '+' :: rest => (false, rest)
    | cs => (false, cs)
  match cs with
  | c :: _ =>
    if !c.isDigit then none
    else
      let (n, rest) := readNumber cs
      let value : Int := if negative then -(n : Int) else n
      if rest.all isBlank && -(Word.half64 : Int) ≤ value && value < Word.half64 then some value
      else none
  | [] => none

/-! Tokens. -/

inductive Token where
  | number (value : Int64)
  | name (text : String)
  | sign (text : String)

/-- Signs, those first that others are the start of. -/
def signs : List String :=
  ["<<=", ">>=", "<<", ">>", "<=", ">=", "==", "!=", "&&", "||", "+=", "-=", "*=", "/=", "%=",
   "&=", "^=", "|=", "=", "<", ">", "+", "-", "*", "/", "%", "&", "^", "|", "!", "~", "(", ")",
   "?", ":"]

def isNameStart (c : Char) : Bool := c.isAlpha || c == '_'

def tokens : Nat → List Char → List Token
  | 0, _ => []
  | _ + 1, [] => []
  | fuel + 1, c :: rest =>
    if isBlank c then tokens fuel rest
    else if c.isDigit then
      let (n, after) := readNumber (c :: rest)
      .number (clamp n) :: tokens fuel after
    else if isNameStart c then
      let name := (c :: rest).takeWhile fun d => isNameStart d || d.isDigit
      .name (String.ofList name) :: tokens fuel ((c :: rest).drop name.length)
    else
      match signs.find? fun s => s.toList.isPrefixOf (c :: rest) with
      | some s => .sign s :: tokens fuel ((c :: rest).drop s.length)
      | none => .sign (String.singleton c) :: tokens fuel rest

/-! Expressions. -/

abbrev Read (α : Type) := Except String (α × List Token)

def strength? : String → Option Nat
  | "|" => some 1
  | "^" => some 2
  | "&" => some 3
  | "==" | "!=" => some 4
  | "<" | "<=" | ">" | ">=" => some 5
  | "<<" | ">>" => some 6
  | "+" | "-" => some 7
  | "*" | "/" | "%" => some 8
  | _ => none

def assignments : List String :=
  ["=", "+=", "-=", "*=", "/=", "%=", "&=", "^=", "|=", "<<=", ">>="]

mutual

def readAssignment : Nat → List Token → Read Expr
  | 0, _ => .error "expecting primary"
  | fuel + 1, ts =>
    match ts with
    | .name name :: .sign op :: rest =>
      if assignments.contains op then
        match readAssignment fuel rest with
        | .error e => .error e
        | .ok (value, rest) => .ok (.assign name (op.dropEnd 1).toString value, rest)
      else readChoice fuel ts
    | ts => readChoice fuel ts

def readChoice : Nat → List Token → Read Expr
  | 0, _ => .error "expecting primary"
  | fuel + 1, ts =>
    match readEither fuel ts with
    | .error e => .error e
    | .ok (condition, .sign "?" :: rest) =>
      match readAssignment fuel rest with
      | .error e => .error e
      | .ok (left, .sign ":" :: rest) =>
        match readChoice fuel rest with
        | .error e => .error e
        | .ok (right, rest) => .ok (.choose condition left right, rest)
      | .ok _ => .error "expecting ':'"
    | .ok r => .ok r

def readEither : Nat → List Token → Read Expr
  | 0, _ => .error "expecting primary"
  | fuel + 1, ts =>
    match readBoth fuel ts with
    | .error e => .error e
    | .ok (left, .sign "||" :: rest) =>
      match readEither fuel rest with
      | .error e => .error e
      | .ok (right, rest) => .ok (.either left right, rest)
    | .ok r => .ok r

def readBoth : Nat → List Token → Read Expr
  | 0, _ => .error "expecting primary"
  | fuel + 1, ts =>
    match readBinary fuel 1 ts with
    | .error e => .error e
    | .ok (left, .sign "&&" :: rest) =>
      match readBoth fuel rest with
      | .error e => .error e
      | .ok (right, rest) => .ok (.both left right, rest)
    | .ok r => .ok r

/-- Reads operands and the signs between them that bind at least so strongly. -/
def readBinary : Nat → Nat → List Token → Read Expr
  | 0, _, _ => .error "expecting primary"
  | fuel + 1, least, ts =>
    match readOperand fuel ts with
    | .error e => .error e
    | .ok (left, rest) => readMore fuel least left rest

def readMore : Nat → Nat → Expr → List Token → Read Expr
  | 0, _, _, _ => .error "expecting primary"
  | fuel + 1, least, left, ts =>
    match ts with
    | .sign op :: rest =>
      match strength? op with
      | some n =>
        if n < least then .ok (left, ts)
        else
          match readBinary fuel (n + 1) rest with
          | .error e => .error e
          | .ok (right, rest) => readMore fuel least (.binary op left right) rest
      | none => .ok (left, ts)
    | ts => .ok (left, ts)

def readOperand : Nat → List Token → Read Expr
  | 0, _ => .error "expecting primary"
  | fuel + 1, ts =>
    match ts with
    | .number n :: rest => .ok (.number n, rest)
    | .name name :: rest => .ok (.named name, rest)
    | .sign "(" :: rest =>
      match readAssignment fuel rest with
      | .error e => .error e
      | .ok (e, .sign ")" :: rest) => .ok (e, rest)
      | .ok _ => .error "expecting ')'"
    | .sign "-" :: rest => unary '-' (readOperand fuel rest)
    | .sign "+" :: rest => unary '+' (readOperand fuel rest)
    | .sign "!" :: rest => unary '!' (readOperand fuel rest)
    | .sign "~" :: rest => unary '~' (readOperand fuel rest)
    | _ => .error "expecting primary"
where
  unary (op : Char) : Read Expr → Read Expr
    | .ok (e, rest) => .ok (.unary op e, rest)
    | .error e => .error e

end

def read (text : String) : Except String Expr :=
  let ts := tokens (text.length + 1) text.toList
  match readAssignment (12 * ts.length + 12) ts with
  | .error e => .error e
  | .ok (e, []) => .ok e
  | .ok _ => .error "expecting EOF"

/-! Values. -/

def ofBool (b : Bool) : Int64 := if b then 1 else 0

/-- The value of two operands and the sign between them; there is none for a division by zero. -/
def combine? (op : String) (a b : Int64) : Option Int64 :=
  match op with
  | "|" => some (Int64.lor a b)
  | "^" => some (Int64.xor a b)
  | "&" => some (Int64.land a b)
  | "==" => some (ofBool (a.toInt == b.toInt))
  | "!=" => some (ofBool (a.toInt != b.toInt))
  | "<" => some (ofBool (decide (a.toInt < b.toInt)))
  | "<=" => some (ofBool (decide (a.toInt ≤ b.toInt)))
  | ">" => some (ofBool (decide (b.toInt < a.toInt)))
  | ">=" => some (ofBool (decide (b.toInt ≤ a.toInt)))
  | "<<" => some (Int64.shiftLeft a b)
  | ">>" => some (Int64.shiftRight a b)
  | "+" => some (Int64.add a b)
  | "-" => some (Int64.sub a b)
  | "*" => some (Int64.mul a b)
  | "/" => if b.toInt = 0 then none else some (Int64.div a b)
  | "%" => if b.toInt = 0 then none else some (Int64.mod a b)
  | _ => some b

def apply (op : Char) (a : Int64) : Int64 :=
  if op == '-' then Int64.neg a
  else if op == '!' then ofBool (a.toInt == 0)
  else if op == '~' then Int64.complement a
  else a

/-- The value of an expression, where names are looked up and set by `look` and `store`, and a
division by zero is `zero`. -/
def eval {m : Type → Type} [Monad m] (look : String → m Int64) (store : String → Int64 → m Unit)
    (zero : m Int64) : Expr → m Int64
  | .number n => pure n
  | .named name => look name
  | .unary op e => do return apply op (← eval look store zero e)
  | .binary op a b => do
    let a ← eval look store zero a
    let b ← eval look store zero b
    match combine? op a b with
    | some n => pure n
    | none => zero
  | .both a b => do
    if (← eval look store zero a).toInt = 0 then return 0
    else return ofBool ((← eval look store zero b).toInt != 0)
  | .either a b => do
    if (← eval look store zero a).toInt ≠ 0 then return 1
    else return ofBool ((← eval look store zero b).toInt != 0)
  | .choose c a b => do
    if (← eval look store zero c).toInt ≠ 0 then eval look store zero a
    else eval look store zero b
  | .assign name op e => do
    let value ← eval look store zero e
    let value ← if op == "" then pure value
      else do
        match combine? op (← look name) value with
        | some n => pure n
        | none => zero
    store name value
    return value

end SpecUpgrade.Shell.Arithmetic
