import SpecUpgrade.Utility.Basic
import SpecUpgrade.Utility.Mode

/-!
Programs that make, copy, move and remove files.
-/

namespace SpecUpgrade.Utility

open Shell

/-- The path without slashes at its end, but for one that is all of it. -/
def withoutSlashes (path : String) : String :=
  let cs := (path.toList.reverse.dropWhile (· == '/')).reverse
  if cs.isEmpty then (if path.isEmpty then "" else "/") else String.ofList cs

def lastName (path : String) : String :=
  let trimmed := withoutSlashes path
  if trimmed == "/" then "/" else ((trimmed.splitOn "/").getLast?).getD ""

def below (directory name : String) : String :=
  if directory.endsWith "/" then directory ++ name else directory ++ "/" ++ name

def isDirectory (path : String) : Run Bool := do
  match ← Run.look path with
  | .ok (_, found) => return found.isDir
  | .error _ => return false

def entry? (path : String) : Run (Option (Location × FileTree)) := do
  return (← Run.lookEntry path).toOption

/-- Does something for each of some paths; whether all went well. -/
def forEach (paths : List String) (go : String → Run Bool) : Run Nat := do
  let mut status := 0
  for path in paths do
    if !(← go path) then status := 1
  return status

/-! Directories. -/

/-- Makes the directory at a path and those on the way. -/
def makePath (name : String) (path : String) : Run Bool := do
  let absolute := isAbsolute path
  let steps := pathSteps path
  let rec go : List String → String → Run Bool
    | [], _ => return true
    | step :: rest, known => do
      let path := if known == "" then (if absolute then "/" ++ step else step) else below known step
      match ← Run.look path with
      | .ok (_, .dir _) => go rest path
      | .ok _ =>
        complain name ("cannot create directory " ++ Quote.word path ++ ": " ++
          FileError.reason (if rest.isEmpty then .alreadyThere else .notDirectory))
        return false
      | .error _ =>
        match ← Run.changeFiles fun t here => t.makeDir here (Run.pathText path) with
        | .ok () => go rest path
        | .error e =>
          complain name ("cannot create directory " ++ Quote.word path ++ ": " ++ e.reason)
          return false
  if path.isEmpty then
    complain name ("cannot create directory '': " ++ FileError.reason .missing)
    return false
  else go steps ""

def mkdir : Program := fun words =>
  withOptions ⟨"p", [("parents", 'p')], true, 1⟩ words fun name g => do
  if g.operands.isEmpty then misuse name "missing operand" 1
  else
    forEach g.operands fun path => do
      if g.has 'p' then makePath name path
      else
        match ← Run.changeFiles fun t here => t.makeDir here (Run.pathText path) with
        | .ok () => return true
        | .error e =>
          complain name ("cannot create directory " ++ Quote.word path ++ ": " ++ e.reason)
          return false

def removeDirectory (path : String) : Run (Except FileError Unit) := do
  let here ← Run.here
  Run.onMachine fun m => m.removeDir here (Run.pathText path)

def rmdir : Program := fun words =>
  withOptions ⟨"p", [("parents", 'p')], true, 1⟩ words fun name g => do
  if g.operands.isEmpty then misuse name "missing operand" 1
  else
    forEach g.operands fun path => do
      let names := pathSteps path
      let above := (List.range names.length).map fun k =>
        (if isAbsolute path then "/" else "") ++
          String.intercalate "/" (names.take (names.length - k))
      let mut fine := true
      for p in if g.has 'p' then above else [path] do
        if fine then
          match ← removeDirectory p with
          | .ok () => pure ()
          | .error e =>
            complain name ("failed to remove " ++ (if p == path then "" else "directory ") ++
              Quote.name p ++ ": " ++ e.reason)
            fine := false
      return fine

/-! Removing. -/

def removeFile (path : String) : Run (Except FileError Unit) := do
  let here ← Run.here
  Run.onMachine fun m => m.removeFile here (Run.pathText path)

/-- The paths of all that is below a directory, what is inside before what it is in. -/
def pathsBelow : Nat → String → FileTree → List String
  | 0, _, _ => []
  | fuel + 1, path, .dir entries =>
    entries.flatMap (fun (name, t) => pathsBelow fuel (below path (Byte.spread name)) t) ++ [path]
  | _ + 1, path, _ => [path]

def maxLevels : Nat := 4096

def rm : Program := fun words =>
  withOptions ⟨"dfrR", [("force", 'f'), ("recursive", 'r'), ("dir", 'd')], true, 1⟩ words
    fun name g => do
  let forced := g.has 'f'
  let deep := g.has 'r' || g.has 'R'
  let wrong (path : String) (e : FileError) : Run Bool := do
    complain name ("cannot remove " ++ Quote.name path ++ ": " ++ e.reason)
    return false
  if g.operands.isEmpty then
    if forced then return 0 else misuse name "missing operand" 1
  else
    forEach g.operands fun path => do
      match ← Run.lookEntry path with
      | .error e =>
        if forced && (e = .missing || e = .notDirectory) then return true else wrong path e
      | .ok (place, .dir _) =>
        let last := lastName path
        if !deep && !(g.has 'd') then wrong path .isDirectory
        else if deep && (last == "." || last == "..") then
          complain name ("refusing to remove '.' or '..' directory: skipping " ++ Quote.name path)
          return false
        else if deep && place.isEmpty then
          complain name "it is dangerous to operate recursively on '/'"
          complain name "use --no-preserve-root to override this failsafe"
          return false
        else if deep then
          Run.updateMachine fun m => m.removeTree place
          return true
        else
          match ← removeDirectory path with
          | .ok () => return true
          | .error e => wrong path e
      | .ok _ =>
        match ← removeFile path with
        | .ok () => return true
        | .error e => wrong path e

/-! Targets. -/

/-- Where things are copied or moved: into a directory, or under a new name. -/
inductive Target where
  | into (directory : String)
  | as (path : String)

/-- What the operands of a program say: the sources and where they go. -/
def targetOf (name : String) (operands : List String) : Run (Except Nat (List String × Target)) := do
  match operands with
  | [] => return .error (← misuse name "missing file operand" 1)
  | [one] =>
    return .error (← misuse name ("missing destination file operand after " ++ Quote.name one) 1)
  | operands =>
    let last := (operands.getLast?).getD ""
    let sources := operands.dropLast
    if ← isDirectory last then return .ok (sources, .into last)
    else
      match sources with
      | [_] => return .ok (sources, .as last)
      | _ =>
        let e : FileError := match ← Run.look last with
          | .error e => e
          | .ok _ => .notDirectory
        complain name ("target " ++ Quote.name last ++ ": " ++ e.reason)
        return .error 1

def Target.path (t : Target) (source : String) : String :=
  match t with
  | .into directory => below directory (lastName source)
  | .as path => path

/-! Copying. -/

/-- Writes a file with a content; one that is new gets a mode. -/
def writeFile (path : String) (content : List UInt8) (mode : Nat) : Run (Except FileError Unit) := do
  let mask := (← Run.process).mask
  let here ← Run.here
  match ← Run.onMachine fun m =>
      m.openPath here .write (Run.pathText path) (Nat.land mode (0o777 - mask)) with
  | .error e => return .error e
  | .ok o => Run.onMachine fun m => m.writeOpen o content

structure Copying where
  name : String
  deep : Bool
  linked : Bool
  forced : Bool
  kept : Bool

def copyTo (c : Copying) : Nat → String → String → Run Bool
  | 0, _, _ => return true
  | fuel + 1, source, target => do
    let found ← if c.linked then Run.lookEntry source else Run.look source
    match found with
    | .error e =>
      complain c.name ("cannot stat " ++ Quote.name source ++ ": " ++ e.reason)
      return false
    | .ok (place, t) =>
      let there := (← Run.look target).toOption
      match t with
      | .dir entries =>
        if !c.deep then
          complain c.name ("-r not specified; omitting directory " ++ Quote.name source)
          return false
        else
          match there with
          | some (at_, .dir _) =>
            if place.isPrefixOf at_ then
              complain c.name ("cannot copy a directory, " ++ Quote.name source ++
                ", into itself, " ++ Quote.name target)
              return false
            else copyAll fuel source target entries
          | some _ =>
            complain c.name ("cannot overwrite non-directory " ++ Quote.name target ++
              " with directory " ++ Quote.name source)
            return false
          | none =>
            let parent ← Run.here
            let inside := match (← Run.files).parentOf parent (Run.pathText target) with
              | .ok (p, _) => place.isPrefixOf p
              | .error _ => false
            if inside then
              complain c.name ("cannot copy a directory, " ++ Quote.name source ++
                ", into itself, " ++ Quote.name target)
              return false
            else
              match ← Run.changeFiles fun t here => t.makeDir here (Run.pathText target) with
              | .error e =>
                complain c.name ("cannot create directory " ++ Quote.name target ++ ": " ++ e.reason)
                return false
              | .ok () => copyAll fuel source target entries
      | .link text =>
        if c.forced || (← entry? target).isSome then
          let _ ← removeFile target
        match ← Run.changeFiles fun t here => t.makeLink here text (Run.pathText target) with
        | .ok () => return true
        | .error e =>
          complain c.name ("cannot create symbolic link " ++ Quote.name target ++ ": " ++ e.reason)
          return false
      | t =>
        match there with
        | some (at_, .dir _) =>
          if at_ == place then return true
          else
            complain c.name ("cannot overwrite directory " ++ Quote.name target ++
              " with non-directory " ++ Quote.name source)
            return false
        | there =>
          if (there.map (·.1)) == some place then
            complain c.name (Quote.name source ++ " and " ++ Quote.name target ++
              " are the same file")
            return false
          else if c.kept && there.isSome then return true
          else
            let (content, mode) := match t with
              | .file content mode => (content, mode)
              | _ => ([], FileTree.plainMode)
            match ← writeFile target content mode with
            | .ok () => return true
            | .error e =>
              let e := if target.endsWith "/" && e = .isDirectory then .notDirectory else e
              complain c.name ("cannot create regular file " ++ Quote.name target ++ ": " ++ e.reason)
              return false
termination_by fuel => (fuel, 0)
where
  copyAll (fuel : Nat) (source target : String) (entries : List (String × FileTree)) :
      Run Bool := do
    let mut fine := true
    for (name, _) in entries do
      let name := Byte.spread name
      if !(← copyTo c fuel (below source name) (below target name)) then fine := false
    return fine
  termination_by (fuel, 1)

def cp : Program := fun words =>
  withOptions ⟨"adfLnpPrR", [("archive", 'a'), ("force", 'f'), ("recursive", 'r'),
    ("no-clobber", 'n'), ("no-dereference", 'P'), ("dereference", 'L'), ("preserve", 'p')],
    true, 1⟩ words fun name g => do
  match ← targetOf name g.operands with
  | .error status => return status
  | .ok (sources, target) =>
    let deep := g.has 'r' || g.has 'R' || g.has 'a'
    let c : Copying := {
      name, deep
      linked := g.last? ['P', 'd', 'L', 'a'] != some 'L' && (g.has 'P' || g.has 'd' || deep)
      forced := g.has 'f', kept := g.has 'n' }
    forEach sources fun source => copyTo c maxLevels source (target.path source)

/-! Moving. -/

def mv : Program := fun words =>
  withOptions ⟨"fn", [("force", 'f'), ("no-clobber", 'n')], true, 1⟩ words fun name g => do
  match ← targetOf name g.operands with
  | .error status => return status
  | .ok (sources, target) =>
    forEach sources fun source => do
      let path := target.path source
      match ← Run.lookEntry source with
      | .error e =>
        complain name ("cannot stat " ++ Quote.name source ++ ": " ++ e.reason)
        return false
      | .ok (old, moved) =>
        match ← entry? path with
        | some (new, there) =>
          if old == new then
            complain name (Quote.name source ++ " and " ++ Quote.name path ++ " are the same file")
            return false
          else if g.has 'n' then return true
          else if moved.isDir && !there.isDir then
            complain name ("cannot overwrite non-directory " ++ Quote.name path ++
              " with directory " ++ Quote.name source)
            return false
          else if !moved.isDir && there.isDir then
            complain name ("cannot overwrite directory " ++ Quote.name path ++
              " with non-directory " ++ Quote.name source)
            return false
          else rename name source path
        | none => rename name source path
where
  rename (name source path : String) : Run Bool := do
    let here ← Run.here
    match ← Run.onMachine fun m => m.rename here (Run.pathText source) (Run.pathText path) with
    | .ok () => return true
    | .error .invalid =>
      complain name ("cannot move " ++ Quote.name source ++ " to a subdirectory of itself, " ++
        Quote.name path)
      return false
    | .error .notEmpty =>
      complain name ("cannot overwrite " ++ Quote.name path ++ ": " ++ FileError.reason .notEmpty)
      return false
    | .error e =>
      complain name ("cannot move " ++ Quote.name source ++ " to " ++ Quote.name path ++ ": " ++
        e.reason)
      return false

/-! Links. -/

def linkTo (name : String) (g : Given) (source path : String) : Run Bool := do
  let kind := if g.has 's' then "symbolic link " else "hard link "
  let there := (← entry? path).isSome
  if there && g.has 'f' && !(← isDirectoryEntry path) then
    let _ ← removeFile path
  let result ← if g.has 's' then
      Run.changeFiles fun t here => t.makeLink here (Run.pathText source) (Run.pathText path)
    else do
      match ← Run.lookEntry source with
      | .error e =>
        complain name ("failed to access " ++ Quote.name source ++ ": " ++ e.reason)
        return false
      | .ok (_, .dir _) =>
        complain name (Quote.bare source ++ ": hard link not allowed for directory")
        return false
      | .ok (_, t) => Run.changeFiles fun files here => files.place t here (Run.pathText path)
  match result with
  | .ok () => return true
  | .error e =>
    complain name ("failed to create " ++ kind ++ Quote.name path ++ ": " ++ e.reason)
    return false
where
  isDirectoryEntry (path : String) : Run Bool := do
    return ((← entry? path).map (·.2.isDir)).getD false

def ln : Program := fun words =>
  withOptions ⟨"fns", [("symbolic", 's'), ("force", 'f'), ("no-dereference", 'n')], true, 1⟩ words
    fun name g => do
  match g.operands with
  | [] => misuse name "missing file operand" 1
  | [one] => do
    return if ← linkTo name g one (below "." (lastName one)) then 0 else 1
  | operands =>
    let last := (operands.getLast?).getD ""
    let isLink := ((← entry? last).map (·.2.isLink)).getD false
    if (← isDirectory last) && !(g.has 'n' && isLink) then
      forEach operands.dropLast fun source => linkTo name g source (below last (lastName source))
    else
      match operands with
      | [source, path] => return if ← linkTo name g source path then 0 else 1
      | _ =>
        let e : FileError := match ← Run.look last with
          | .error e => e
          | .ok _ => .notDirectory
        complain name ("target " ++ Quote.name last ++ ": " ++ e.reason)
        return 1

/-! Times and modes. -/

def touch : Program := fun words =>
  withOptions ⟨"c", [("no-create", 'c')], true, 1⟩ words fun name g => do
  if g.operands.isEmpty then misuse name "missing file operand" 1
  else
    forEach g.operands fun path => do
      match ← Run.look path with
      | .ok _ => return true
      | .error e =>
        if path.endsWith "/" && e = .notDirectory then
          complain name ("setting times of " ++ Quote.name path ++ ": " ++ e.reason)
          return false
        else if g.has 'c' then return true
        else
          match ← Run.openFile .append path with
          | .ok _ => return true
          | .error e =>
            let e := if path.endsWith "/" && e = .isDirectory then .missing else e
            complain name ("cannot touch " ++ Quote.name path ++ ": " ++ e.reason)
            return false

/-- Arguments that take permissions away look like options, and are none. -/
def isModeWord (w : String) : Bool :=
  match w.toList with
  | '-' :: c :: rest => (c :: rest).all fun d => "rwxXst".toList.contains d
  | _ => false

def chmod : Program := fun words =>
  let guarded := words.map fun (w : String) => if isModeWord w then "a" ++ w else w
  let isGuarded := guarded != words
  withOptions ⟨"fR", [("silent", 'f'), ("recursive", 'R')], true, 1⟩ guarded fun name g => do
  match g.operands with
  | [] => misuse name "missing operand" 1
  | [mode] => misuse name ("missing operand after " ++ Quote.word mode) 1
  | mode :: paths =>
    let text := if isGuarded then (mode.drop 1).toString else mode
    match Mode.read? text with
    | none => misuse name ("invalid mode: " ++ Quote.word mode) 1
    | some change =>
      let mask := (← Run.process).mask
      let set (path : String) : Run Bool := do
        match ← Run.look path with
        | .error e =>
          let e' := if (← entry? path).isSome then "cannot operate on dangling symlink " ++
            Quote.name path else "cannot access " ++ Quote.name path ++ ": " ++ e.reason
          if !g.has 'f' then complain name e'
          return false
        | .ok _ =>
          let _ ← Run.changeFiles fun files here =>
            files.setMode here (Run.pathText path) fun isDir m => change.apply mask isDir m
          return true
      forEach paths fun path => do
        if g.has 'R' then
          match ← Run.look path with
          | .ok (_, t) =>
            let mut fine := true
            for p in (pathsBelow maxLevels path t).reverse do
              if ((← entry? p).map (!·.2.isLink)).getD true then
                if !(← set p) then fine := false
            return fine
          | .error _ => set path
        else set path

/-! Names. -/

def basename : Program := fun words =>
  withOptions ⟨"", [], false, 1⟩ words fun name g => do
  let strip (text suffix : String) : String :=
    if suffix != "" && text != suffix && text.endsWith suffix then
      (text.take (text.length - suffix.length)).toString else text
  match g.operands with
  | [] => misuse name "missing operand" 1
  | [path] => putStatus name (lastName path ++ "\n").toList
  | [path, suffix] => putStatus name (strip (lastName path) suffix ++ "\n").toList
  | _ :: _ :: extra :: _ => misuse name ("extra operand " ++ Quote.word extra) 1

def directoryOf (path : String) : String :=
  let trimmed := withoutSlashes path
  if trimmed == "/" then "/"
  else
    let names := trimmed.splitOn "/"
    match names with
    | [_] => "."
    | _ =>
      let above := withoutSlashes (String.intercalate "/" names.dropLast)
      if above == "" then "/" else above

def dirname : Program := fun words =>
  withOptions ⟨"", [], true, 1⟩ words fun name g => do
  if g.operands.isEmpty then misuse name "missing operand" 1
  else putStatus name (g.operands.flatMap fun p => (directoryOf p ++ "\n").toList)

def readlink : Program := fun words =>
  withOptions ⟨"n", [("no-newline", 'n')], true, 1⟩ words fun name g => do
  if g.operands.isEmpty then misuse name "missing operand" 1
  else
    let finish := if g.has 'n' && g.operands.length == 1 then [] else ['\n']
    forEach g.operands fun path => do
      match ← Run.lookEntry path with
      | .ok (_, .link target) => put name ((Byte.spread target).toList ++ finish)
      | _ => return false

end SpecUpgrade.Utility
