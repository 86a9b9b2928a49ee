import SpecUpgrade.Shell.Pattern

/-!
Regular expressions in two notations. In the basic one most signs need a backslash to have their
meaning, in the extended one they need it to have none. Of the matches at the first place that has
one the longest counts.
-/

namespace SpecUpgrade.Regex

/-- A place between characters. -/
inductive Anchor where
  | textStart
  | textFinish
  | wordStart
  | wordFinish
  | wordEdge
  | wordInside
  | noWordBefore
  | noWordAfter
  deriving DecidableEq, Repr

inductive Node where
  | empty
  | one (test : Char → Bool)
  | anchor (a : Anchor)
  | group (number : Nat) (body : Node)
  | again (number : Nat)
  | sequence (first second : Node)
  | either (first second : Node)
  | repeated (least : Nat) (most : Option Nat) (body : Node)

instance : Inhabited Node := ⟨.empty⟩

/-- What the notation and the search are like. A strict notation refuses signs that have nothing to
do where they stand. -/
structure Dialect where
  extended : Bool := false
  foldsCase : Bool := false
  strict : Bool := false

structure Pattern where
  node : Node
  groups : Nat

def isWordChar (c : Char) : Bool := c.isAlphanum || c == '_'

def lower (c : Char) : Char := c.toLower

def charNode (x : Dialect) (c : Char) : Node :=
  if x.foldsCase then .one fun d => lower d == lower c else .one (· == c)

/-! Reading. -/

structure Reading where
  rest : List Char
  groups : Nat := 0
  opened : List Nat := []

abbrev Reader := StateT Reading (Except String)

def readItems : Nat → Bool → List Shell.Item → Reader (List Shell.Item)
  | 0, _, _ => throw "Unmatched [, [^, [:, [., or [="
  | fuel + 1, first, items => do
    let s ← get
    match s.rest with
    | [] => throw "Unmatched [, [^, [:, [., or [="
    | ']' :: rest =>
      if first then item fuel ']' rest items
      else
        set { s with rest := rest }
        return items
    | '[' :: ':' :: rest =>
      let name := rest.takeWhile Char.isAlpha
      match rest.drop name.length with
      | ':' :: ']' :: after =>
        match Shell.classOf? (String.ofList name) with
        | some test =>
          set { s with rest := after }
          readItems fuel false (.named test :: items)
        | none => throw "Invalid character class name"
      | _ => item fuel '[' (':' :: rest) items
    | c :: rest => item fuel c rest items
termination_by fuel => (fuel, 0)
where
  item (fuel : Nat) (c : Char) (rest : List Char) (items : List Shell.Item) :
      Reader (List Shell.Item) := do
    match rest with
    | '-' :: d :: after =>
      if d == ']' then
        modify fun s => { s with rest := rest }
        readItems fuel false (.range c c :: items)
      else if d.toNat < c.toNat then throw "Invalid range end"
      else
        modify fun s => { s with rest := after }
        readItems fuel false (.range c d :: items)
    | _ =>
      modify fun s => { s with rest := rest }
      readItems fuel false (.range c c :: items)
  termination_by (fuel, 1)

def readBrackets (x : Dialect) : Reader Node := do
  let s ← get
  let (negated, rest) := match s.rest with
    | '^' :: rest => (true, rest)
    | rest => (false, rest)
  set { s with rest := rest }
  let items ← readItems (rest.length + 1) true []
  let holds (c : Char) : Bool := items.any (·.matches c)
  return .one fun c =>
    (if x.foldsCase then holds c.toLower || holds c.toUpper else holds c) != negated

/-- What a backslash with a letter stands for, in both notations. -/
def escapeNode? : Char → Option Node
  | 'w' => some (.one isWordChar)
  | 'W' => some (.one fun c => !isWordChar c)
  | 's' => some (.one fun c => c == ' ' || (9 ≤ c.toNat && c.toNat ≤ 13))
  | 'S' => some (.one fun c => !(c == ' ' || (9 ≤ c.toNat && c.toNat ≤ 13)))
  | 'b' => some (.anchor .wordEdge)
  | 'B' => some (.anchor .wordInside)
  | '<' => some (.anchor .wordStart)
  | '>' => some (.anchor .wordFinish)
  | '\x60' => some (.anchor .textStart)
  | '\x27' => some (.anchor .textFinish)
  | _ => none

def readBounds (x : Dialect) : Reader (Nat × Option Nat) := do
  let s ← get
  let count (cs : List Char) : Option Nat × List Char :=
    let ds := cs.takeWhile Char.isDigit
    (if ds.isEmpty then none else (String.ofList ds).toNat?, cs.drop ds.length)
  let (least, rest) := count s.rest
  let (most, rest) := match rest with
    | ',' :: rest =>
      let (n, rest) := count rest
      (n, rest)
    | rest => (least, rest)
  let after := match x.extended, rest with
    | true, '\x7d' :: rest => some rest
    | false, '\\' :: '\x7d' :: rest => some rest
    | _, _ => none
  match after with
  | some after =>
    if least.isNone && most.isNone && s.rest.head? != some ',' then
      throw "Invalid content of \\\x7b\\\x7d"
    else if (most.map fun m => decide (m < least.getD 0)).getD false then
      throw "Invalid content of \\\x7b\\\x7d"
    else
      set { s with rest := after }
      return (least.getD 0, most)
  | none => throw "Unmatched \\\x7b"

/-- Braces that hold no bounds stand for themselves. -/
def opensBounds (cs : List Char) : Bool :=
  let ds := cs.takeWhile fun c => c.isDigit || c == ','
  !ds.isEmpty && (cs.drop ds.length).head? == some '\x7d'

def badRepeat : String := "Invalid preceding regular expression"

def readRepeats (x : Dialect) : Nat → Node → Reader Node
  | 0, n => return n
  | fuel + 1, n => do
    let s ← get
    let next (least : Nat) (most : Option Nat) (rest : List Char) : Reader Node := do
      set { s with rest := rest }
      if x.strict && !x.extended && rest.head? == some '*' then throw badRepeat
      else readRepeats x fuel (.repeated least most n)
    match x.extended, s.rest with
    | _, '*' :: rest => next 0 none rest
    | true, '+' :: rest => next 1 none rest
    | true, '?' :: rest => next 0 (some 1) rest
    | false, '\\' :: '+' :: rest => next 1 none rest
    | false, '\\' :: '?' :: rest => next 0 (some 1) rest
    | true, '\x7b' :: rest =>
      if x.strict || opensBounds rest then bounds rest s fuel n else return n
    | false, '\\' :: '\x7b' :: rest => bounds rest s fuel n
    | _, _ => return n
termination_by fuel => (fuel, 0)
where
  bounds (rest : List Char) (s : Reading) (fuel : Nat) (n : Node) : Reader Node := do
    set { s with rest := rest }
    let (least, most) ← readBounds x
    readRepeats x fuel (.repeated least most n)
  termination_by (fuel, 1)

def atBranchEnd (x : Dialect) : List Char → Bool
  | [] => true
  | '|' :: _ => x.extended
  | ')' :: _ => x.extended
  | '\\' :: '|' :: _ => !x.extended
  | '\\' :: ')' :: _ => !x.extended
  | _ => false

mutual

def readEither (x : Dialect) : Nat → Reader Node
  | 0 => throw "Regular expression too big"
  | fuel + 1 => do
    let first ← readBranch x fuel true .empty
    let s ← get
    match x.extended, s.rest with
    | true, '|' :: rest =>
      set { s with rest := rest }
      return .either first (← readEither x fuel)
    | false, '\\' :: '|' :: rest =>
      set { s with rest := rest }
      return .either first (← readEither x fuel)
    | _, _ => return first

/-- Reads a row of nodes; `isFirst` is true at its start. -/
def readBranch (x : Dialect) : Nat → Bool → Node → Reader Node
  | 0, _, _ => throw "Regular expression too big"
  | fuel + 1, isFirst, done => do
    let s ← get
    let isPlain := x.extended && !x.strict && s.opened.isEmpty && s.rest.head? == some ')'
    if atBranchEnd x s.rest && !isPlain then
      return done
    else
      let (n, repeats) ← readNode x fuel isFirst
      let n ← if repeats then readRepeats x ((← get).rest.length + 1) n else pure n
      let isAnchor := match n with
        | .anchor .textStart => true
        | _ => false
      readBranch x fuel (isFirst && isAnchor) (match done with
        | .empty => n
        | done => .sequence done n)

/-- Reads one node and whether it may be repeated. -/
def readNode (x : Dialect) : Nat → Bool → Reader (Node × Bool)
  | 0, _ => throw "Regular expression too big"
  | fuel + 1, isFirst => do
    let s ← get
    match s.rest with
    | [] => return (.empty, false)
    | c :: rest =>
      set { s with rest := rest }
      match c with
      | '.' => return (.one fun _ => true, true)
      | '[' => return (← readBrackets x, true)
      | '^' =>
        if x.extended || isFirst then return (.anchor .textStart, x.extended)
        else return (charNode x c, true)
      | '$' =>
        if x.extended || atBranchEnd x rest then return (.anchor .textFinish, x.extended)
        else return (charNode x c, true)
      | '*' =>
        if isFirst && x.extended && x.strict then throw badRepeat
        else return (if isFirst && x.extended then .empty else charNode x c, true)
      | '\\' =>
        match rest with
        | [] => throw "Trailing backslash"
        | d :: after =>
          set { s with rest := after }
          if d == '(' && !x.extended then return (← readGroup x fuel, true)
          else if d == '\x7b' && !x.extended then
            if isFirst then throw badRepeat
            else return (charNode x d, true)
          else if d.isDigit && d != '0' then
            let n := d.toNat - '0'.toNat
            if s.groups < n then throw "Invalid back reference" else return (.again n, true)
          else
            match escapeNode? d with
            | some n => return (n, true)
            | none => return (charNode x d, true)
      | c =>
        if c == '(' && x.extended then return (← readGroup x fuel, true)
        else if (c == '+' || c == '?') && x.extended && isFirst then
          if x.strict then throw badRepeat else return (.empty, true)
        else if c == '\x7b' && x.extended && x.strict then throw badRepeat
        else return (charNode x c, true)

def readGroup (x : Dialect) : Nat → Reader Node
  | 0 => throw "Regular expression too big"
  | fuel + 1 => do
    let number := (← get).groups + 1
    modify fun s => { s with groups := number, opened := number :: s.opened }
    let body ← readEither x fuel
    let s ← get
    match x.extended, s.rest with
    | true, ')' :: rest =>
      set { s with rest := rest, opened := s.opened.drop 1 }
      return .group number body
    | false, '\\' :: ')' :: rest =>
      set { s with rest := rest, opened := s.opened.drop 1 }
      return .group number body
    | _, _ => throw "Unmatched ( or \\("

end

def read (x : Dialect) (text : String) : Except String Pattern := do
  let cs := text.toList
  let (n, s) ← (readEither x (4 * cs.length + 8)).run { rest := cs }
  if s.rest.isEmpty then return ⟨n, s.groups⟩ else throw "Unmatched ) or \\)"

/-- The regular expression that stands for a text itself. -/
def literal (x : Dialect) (text : String) : Pattern :=
  ⟨text.toList.foldl (fun n c => .sequence n (charNode x c)) .empty, 0⟩

def Pattern.asWord (r : Pattern) : Pattern :=
  { r with node := .sequence (.anchor .noWordBefore) (.sequence r.node (.anchor .noWordAfter)) }

def Pattern.asWhole (r : Pattern) : Pattern :=
  { r with node := .sequence (.anchor .textStart) (.sequence r.node (.anchor .textFinish)) }

/-! Matching. -/

/-- A place in a text: what comes before it, last character first, and what comes after it. -/
structure Place where
  before : List Char
  after : List Char

def Place.next? (p : Place) : Option (Char × Place) :=
  match p.after with
  | [] => none
  | c :: rest => some (c, ⟨c :: p.before, rest⟩)

abbrev Groups := List (Nat × List Char)

def holds (p : Place) : Anchor → Bool
  | .textStart => p.before.isEmpty
  | .textFinish => p.after.isEmpty
  | .wordStart => !isWord p.before.head? && isWord p.after.head?
  | .wordFinish => isWord p.before.head? && !isWord p.after.head?
  | .wordEdge => isWord p.before.head? != isWord p.after.head?
  | .wordInside => isWord p.before.head? == isWord p.after.head?
  | .noWordBefore => !isWord p.before.head?
  | .noWordAfter => !isWord p.after.head?
where
  isWord (c : Option Char) : Bool := (c.map isWordChar).getD false

/-- The end of a match, with what is left of the text and the groups. -/
abbrev Found := Place × Groups

/-- The longer of two matches; of two that are equally long the first. -/
def longer (a : Option Found) (b : Unit → Option Found) : Option Found :=
  match a with
  | none => b ()
  | some (p, g) =>
    if p.after.isEmpty then a
    else
      match b () with
      | some (q, h) => if q.after.length < p.after.length then some (q, h) else some (p, g)
      | none => a

/-- Takes a text off another that starts with it. -/
def dropText : List Char → Place → Option Place
  | [], p => some p
  | c :: cs, p =>
    match p.next? with
    | some (d, q) => if c == d then dropText cs q else none
    | none => none

/-- The longest match of a node with what follows it; `fuel` bounds the depth. -/
def matchNode : Nat → Node → Place → Groups → (Place → Groups → Option Found) → Option Found
  | 0, _, _, _, _ => none
  | fuel + 1, n, p, g, k =>
    match n with
    | .empty => k p g
    | .one test =>
      match p.next? with
      | some (c, q) => if test c then k q g else none
      | none => none
    | .anchor a => if holds p a then k p g else none
    | .again number =>
      match g.find? (·.1 == number) with
      | some (_, text) => (dropText text p).bind fun q => k q g
      | none => none
    | .group number body =>
      matchNode fuel body p g fun q g =>
        let text := p.after.take (p.after.length - q.after.length)
        k q ((number, text) :: g.filter (·.1 != number))
    | .sequence first second =>
      matchNode fuel first p g fun q g => matchNode fuel second q g k
    | .either first second =>
      longer (matchNode fuel first p g k) fun _ => matchNode fuel second p g k
    | .repeated least most body =>
      let more := (most.map fun m => decide (0 < m)).getD true
      let again (_ : Unit) : Option Found :=
        if !more then none
        else
          matchNode fuel body p g fun q g =>
            if q.after.length == p.after.length && least == 0 then none
            else matchNode fuel (.repeated (least - 1) (most.map (· - 1)) body) q g k
      if least == 0 then longer (again ()) fun _ => k p g else again ()

def maxDepth : Nat := 1000000

def Pattern.matchAt (r : Pattern) (p : Place) : Option Found :=
  matchNode maxDepth r.node p [] fun q g => some (q, g)

/-- The first match from a place on: where it starts and its end. -/
def Pattern.findFrom (r : Pattern) (before : List Char) : List Char → Option (Place × Found)
  | [] => (r.matchAt ⟨before, []⟩).map (⟨before, []⟩, ·)
  | c :: rest =>
    match r.matchAt ⟨before, c :: rest⟩ with
    | some f => some (⟨before, c :: rest⟩, f)
    | none => r.findFrom (c :: before) rest

def Pattern.isIn (r : Pattern) (cs : List Char) : Bool := (r.findFrom [] cs).isSome

end SpecUpgrade.Regex
