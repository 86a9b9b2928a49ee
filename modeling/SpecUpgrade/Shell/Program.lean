import SpecUpgrade.Shell.Run

/-!
Programs and how they are found. The file of a program of the system holds its name after a mark;
any other file that may be run names in its first line the program that reads it.
-/

namespace SpecUpgrade.Shell

/-- What the file of a program of the system starts with. -/
def programMark : List UInt8 := [0x7f, 0x45, 0x4c, 0x46]

def programFile (name : String) : FileTree :=
  .file (programMark ++ Utf8.encode name) FileTree.programMode

/-- The program of the system whose file has this content. -/
def programName? (content : List UInt8) : Option String :=
  if programMark.isPrefixOf content then Utf8.text? (content.drop programMark.length) else none

/-- The program that a script asks for in its first line, and the argument for it. -/
def interpreter? (content : List UInt8) : Option (String × Option String) :=
  match Byte.chars content with
  | '#' :: '!' :: rest =>
    let isBlank (c : Char) : Bool := c == ' ' || c == '\t'
    let line := (rest.takeWhile (· != '\n')).dropWhile isBlank
    let path := line.takeWhile fun c => !isBlank c
    let argument := ((line.drop path.length).dropWhile isBlank).reverse.dropWhile isBlank
    if path.isEmpty then none
    else some (String.ofList path,
      if argument.isEmpty then none else some (String.ofList argument.reverse))
  | _ => none

def maxInterpreters : Nat := 5

namespace Run

/-- The program of the system that a file is run by, with the words it is called with. -/
def image : Nat → String → List String → Run (Except FileError (String × List String))
  | 0, _, _ => return .error .tooManyLinks
  | fuel + 1, path, words => do
    match ← look path with
    | .error e => return .error e
    | .ok (_, .file content mode) =>
      if !FileTree.allowsRunning mode then return .error .denied
      else
        match programName? content, interpreter? content with
        | some name, _ => return .ok (name, words)
        | none, some (program, argument) =>
          image fuel program (program :: argument.toList ++ path :: words.drop 1)
        | none, none => return .error .notExecutable
    | .ok _ => return .error .denied

def defaultShell : String := "/bin/sh"

/-- How a shell runs a file: one that is no program is a script. -/
def shellImage (path : String) (words : List String) :
    Run (Except FileError (String × List String)) := do
  match ← image maxInterpreters path words with
  | .error .notExecutable =>
    image maxInterpreters defaultShell (defaultShell :: path :: words.drop 1)
  | found => return found

def defaultPath : String :=
  "/usr/local/sbin:/usr/local/bin:/usr/sbin:/usr/bin:/sbin:/bin"

def searchPath : Run (List String) := do
  return ((← valueOf? "PATH").getD defaultPath).splitOn ":"

/-- The path of a name in a directory, where no directory is the one at hand. -/
def inDirectory (directory name : String) : String :=
  if directory == "" then name else directory ++ "/" ++ name

def findFile? : List String → String → Run (Option String)
  | [], _ => return none
  | directory :: rest, name => do
    let path := inDirectory directory name
    match ← look path with
    | .ok (_, .file _ _) => return some path
    | _ => findFile? rest name

def findProgram? : List String → String → Run (Option String)
  | [], _ => return none
  | directory :: rest, name => do
    let path := inDirectory directory name
    match ← look path with
    | .ok (_, found) => if found.isRunnable then return some path else findProgram? rest name
    | _ => findProgram? rest name

/-- Finds what a word is run by, as it is done by a shell. Of the reasons why a file cannot be run
the last counts that is more than that it is missing. -/
def resolve (directories : List String) (words : List String) :
    Run (Except FileError (String × List String)) := do
  let word := words.headD ""
  if word.toList.contains '/' then shellImage word words
  else
    let rec go : List String → FileError → Run (Except FileError (String × List String))
      | [], reason => return .error reason
      | directory :: rest, reason => do
        match ← shellImage (inDirectory directory word) words with
        | .ok found => return .ok found
        | .error .missing => go rest reason
        | .error .notDirectory => go rest reason
        | .error e => go rest e
    go directories .missing

/-- Finds what a word is run by, as it is done by other programs: a script must name its program. -/
def resolvePlain (words : List String) : Run (Except FileError (String × List String)) := do
  let word := words.headD ""
  if word.toList.contains '/' then image maxInterpreters word words
  else
    let rec go : List String → FileError → Run (Except FileError (String × List String))
      | [], reason => return .error reason
      | directory :: rest, reason => do
        match ← shellImage (inDirectory directory word) words with
        | .ok found => return .ok found
        | .error .missing => go rest reason
        | .error .notDirectory => go rest reason
        | .error e => go rest e
    go (← searchPath) .missing

/-- A process as a program gets it: open files that are not its own business are closed, and of what
a shell keeps only the variables for programs are left. -/
def asProgram (p : Process) : Process where
  number := p.number
  leader := p.number
  parent := p.parent
  descriptors := p.descriptors.filter (·.1 < 10)
  mask := p.mask
  ignored := p.ignored
  bindings := p.bindings.filterMap fun (name, v) =>
    if v.exported && v.value.isSome then some (name, { v with fixed := false }) else none

end Run
end SpecUpgrade.Shell
