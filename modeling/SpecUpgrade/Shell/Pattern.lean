/-!
Patterns for names. A star stands for any text, a question mark for one character and brackets for
one of some; a character that is quoted stands for itself.
-/

namespace SpecUpgrade.Shell

/-- The characters of a pattern, each with whether it is quoted. -/
abbrev Pattern := List (Char × Bool)

def classOf? (name : String) : Option (Char → Bool) :=
  match name with
  | "alpha" => some Char.isAlpha
  | "digit" => some Char.isDigit
  | "alnum" => some Char.isAlphanum
  | "upper" => some Char.isUpper
  | "lower" => some Char.isLower
  | "space" => some fun c => c == ' ' || (9 ≤ c.toNat && c.toNat ≤ 13)
  | "blank" => some fun c => c == ' ' || c == '\t'
  | "punct" => some fun c => 33 ≤ c.toNat && c.toNat ≤ 126 && !c.isAlphanum
  | "print" => some fun c => 32 ≤ c.toNat && c.toNat ≤ 126
  | "graph" => some fun c => 33 ≤ c.toNat && c.toNat ≤ 126
  | "cntrl" => some fun c => c.toNat < 32 || c.toNat == 127
  | "xdigit" => some fun c =>
    c.isDigit || "abcdefABCDEF".toList.contains c
  | _ => none

/-- One of the characters in brackets: a class, a range, or a character. -/
inductive Item where
  | named (test : Char → Bool)
  | range (first last : Char)

def Item.matches : Item → Char → Bool
  | named test, c => test c
  | range first last, c => first.toNat ≤ c.toNat && c.toNat ≤ last.toNat

/-- The name of a class that opens here, and what comes after it. -/
def readClass? (p : Pattern) : Option (String × Pattern) :=
  match p with
  | ('[', false) :: (':', false) :: rest =>
    let name := rest.takeWhile fun (c, _) => c.isAlpha
    match rest.drop name.length with
    | (':', false) :: (']', false) :: rest => some (String.ofList (name.map (·.1)), rest)
    | _ => none
  | _ => none

/-- Reads what stands in brackets up to the one that closes, which may be the first of the items. -/
def readItems : Nat → Bool → List Item → Pattern → Option (List Item × Pattern)
  | 0, _, _, _ => none
  | _ + 1, _, _, [] => none
  | fuel + 1, first, items, (c, quoted) :: rest =>
    if c == ']' && !quoted && !first then some (items, rest)
    else
      match (readClass? ((c, quoted) :: rest)).bind fun (name, rest) =>
          (classOf? name).map (·, rest) with
      | some (test, rest) => readItems fuel false (.named test :: items) rest
      | none =>
        let (c, rest) := match c, quoted, rest with
          | '\\', false, (d, _) :: rest => (d, rest)
          | _, _, _ => (c, rest)
        match rest with
        | ('-', false) :: (d, dq) :: after =>
          if d == ']' && !dq then readItems fuel false (.range c c :: items) rest
          else
            let (d, after) := match d, dq, after with
              | '\\', false, (e, _) :: after => (e, after)
              | _, _, _ => (d, after)
            readItems fuel false (.range c d :: items) after
        | _ => readItems fuel false (.range c c :: items) rest

/-- The test for one character that brackets stand for, and the pattern after them. The first has
been taken. -/
def readBrackets? (p : Pattern) : Option ((Char → Bool) × Pattern) :=
  let (negated, p) := match p with
    | ('!', false) :: rest => (true, rest)
    | p => (false, p)
  (readItems (p.length + 1) true [] p).map fun (items, rest) =>
    (fun c => items.any (·.matches c) != negated, rest)

inductive Element where
  | any
  | one (test : Char → Bool)

def elements : Nat → Pattern → List Element
  | 0, _ => []
  | _ + 1, [] => []
  | fuel + 1, (c, quoted) :: rest =>
    if quoted then .one (· == c) :: elements fuel rest
    else if c == '*' then .any :: elements fuel rest
    else if c == '?' then .one (fun _ => true) :: elements fuel rest
    else if c == '[' then
      match readBrackets? rest with
      | some (test, rest) => .one test :: elements fuel rest
      | none => .one (· == c) :: elements fuel rest
    else if c == '\\' then
      match rest with
      | (d, _) :: rest => .one (· == d) :: elements fuel rest
      | [] => [.one (· == c)]
    else .one (· == c) :: elements fuel rest

def elementsMatch : List Element → List Char → Bool
  | [], [] => true
  | [], _ :: _ => false
  | .any :: es, cs => anyMatch es cs
  | .one _ :: _, [] => false
  | .one test :: es, c :: cs => test c && elementsMatch es cs
termination_by es => (es.length, 0)
where
  /-- The elements match some end of a text. -/
  anyMatch (es : List Element) : List Char → Bool
    | [] => elementsMatch es []
    | c :: cs => elementsMatch es (c :: cs) || anyMatch es cs
  termination_by cs => (es.length, cs.length + 1)

def Pattern.matches (p : Pattern) (text : String) : Bool :=
  elementsMatch (elements (p.length + 1) p) text.toList

/-- A pattern that is more than a text. -/
def Pattern.isOpen (p : Pattern) : Bool :=
  p.any fun (c, quoted) => !quoted && (c == '*' || c == '?' || c == '[')

def Pattern.text (p : Pattern) : String := String.ofList (p.map (·.1))

/-- The text without its start that a pattern matches, the shortest such start or the longest. -/
def Pattern.cutFront (p : Pattern) (longest : Bool) (text : String) : String :=
  let cs := text.toList
  let es := elements (p.length + 1) p
  let lengths := List.range (cs.length + 1)
  match (if longest then lengths.reverse else lengths).find? fun n => elementsMatch es (cs.take n) with
  | some n => String.ofList (cs.drop n)
  | none => text

/-- The text without its end that a pattern matches, the shortest such end or the longest. -/
def Pattern.cutBack (p : Pattern) (longest : Bool) (text : String) : String :=
  let cs := text.toList
  let es := elements (p.length + 1) p
  let lengths := List.range (cs.length + 1)
  match (if longest then lengths else lengths.reverse).find? fun n => elementsMatch es (cs.drop n) with
  | some n => String.ofList (cs.take n)
  | none => text

end SpecUpgrade.Shell
