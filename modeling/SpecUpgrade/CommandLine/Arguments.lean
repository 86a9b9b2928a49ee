import SpecUpgrade.Facts.Identity

/-!
Arguments of the command line. Options may stand before and after the name of the command; each may
be given once in either place, and what is given after the name counts.
-/

namespace SpecUpgrade.CommandLine

/-- Why there is nothing to run. -/
inductive Stop where
  | version
  | help
  | wrongUsage
  deriving DecidableEq, Repr

/-- An option is a flag, has a value that a test accepts, or asks for something to be printed. -/
inductive Kind where
  | flag
  | value (accepts : String → Bool)
  | stop (reason : Stop)

abbrev Table := List (String × Kind)

def Table.find? (table : Table) (option : String) : Option Kind :=
  (List.find? (·.1 == option) table).map (·.2)

def logLevels : List String := ["trace", "debug", "info", "warn", "error"]

def dumpSources : List String := ["ruby", "dump-file"]

def sharedOptions : Table :=
  [("--project", .value (· != "")), ("--log-level", .value logLevels.contains),
   ("--log-json", .flag), ("--help", .stop .help), ("-h", .stop .help)]

def firstOptions : Table :=
  sharedOptions ++ [("--version", .stop .version), ("-V", .stop .version)]

def convertOptions : Table :=
  sharedOptions ++
  [("--dry-run", .flag), ("--no-dynamic", .flag), ("--analysis-command", .value fun _ => true),
   ("--timeout", .value fun s => (Identity.word? s.toList).isSome), ("--keep-sandbox", .flag),
   ("--rules", .value fun _ => true), ("--ast-source", .value dumpSources.contains)]

/-- Options with their values, and what else is given. -/
structure Given where
  options : List (String × String) := []
  operands : List String := []

namespace Given

def value? (g : Given) (option : String) : Option String :=
  (g.options.find? (·.1 == option)).map (·.2)

def has (g : Given) (option : String) : Bool := (g.value? option).isSome

def add (g : Given) (option value : String) : Except Stop Given :=
  if g.has option then .error .wrongUsage
  else .ok { g with options := g.options ++ [(option, value)] }

end Given

def looksLikeOption (token : String) : Bool := token.startsWith "-" && token != "-"

/-- Splits a long option from the value that is written with it. Of short options that are written
in one token only the first is looked at, as each of them asks for something to be printed. -/
def splitOption (token : String) : String × Option String :=
  let cs := token.toList
  if token.startsWith "--" then
    let name := cs.takeWhile (· != '=')
    match cs.drop name.length with
    | _ :: value => (String.ofList name, some (String.ofList value))
    | [] => (token, none)
  else (String.ofList (cs.take 2), none)

inductive Step where
  | given (g : Given)
  | awaiting (option : String) (accepts : String → Bool)

def takeOption (table : Table) (g : Given) (token : String) : Except Stop Step :=
  let (name, value) := splitOption token
  match Table.find? table name, value with
  | some .flag, none => (g.add name "").map .given
  | some (.value accepts), none => .ok (.awaiting name accepts)
  | some (.value accepts), some value =>
    if accepts value then (g.add name value).map .given else .error .wrongUsage
  | some (.stop reason), none => .error reason
  | _, _ => .error .wrongUsage

/-- Reads tokens up to the first operand if `first`, and else all of them. After two dashes every
token is an operand. -/
def readTokens (table : Table) (first : Bool) (g : Given)
    (awaited : Option (String × (String → Bool))) (plain : Bool) :
    List String → Except Stop (Given × List String)
  | [] => if awaited.isSome then .error .wrongUsage else .ok (g, [])
  | token :: rest =>
    match awaited with
    | some (option, accepts) =>
      if looksLikeOption token || !accepts token then .error .wrongUsage
      else
        match g.add option token with
        | .error e => .error e
        | .ok g => readTokens table first g none plain rest
    | none =>
      if !plain && token == "--" then readTokens table first g none true rest
      else if !plain && looksLikeOption token then
        match takeOption table g token with
        | .error e => .error e
        | .ok (.given g) => readTokens table first g none plain rest
        | .ok (.awaiting option accepts) =>
          readTokens table first g (some (option, accepts)) plain rest
      else if first then if plain then .error .wrongUsage else .ok (g, token :: rest)
      else if token == "" then .error .wrongUsage
      else readTokens table first { g with operands := g.operands ++ [token] } none plain rest

/-- Reads the arguments of a call of the program. -/
def read (arguments : List String) : Except Stop Given :=
  match readTokens firstOptions true {} none false arguments with
  | .error e => .error e
  | .ok (before, "convert" :: rest) =>
    match readTokens convertOptions false {} none false rest with
    | .error e => .error e
    | .ok (after, _) => .ok { after with options := after.options ++ before.options }
  | .ok (_, ["help"]) | .ok (_, ["help", "help"]) | .ok (_, ["help", "convert"]) => .error .help
  | .ok _ => .error .wrongUsage

end SpecUpgrade.CommandLine
