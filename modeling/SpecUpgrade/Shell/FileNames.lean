import SpecUpgrade.Shell.Expansion

/-!
Names of files that a pattern matches. Slashes are matched only by themselves, and a point at the
start of a name only by a point.
-/

namespace SpecUpgrade.Shell.Run

/-- The names in the directory at a path, in order and with those that stand for itself and for the
one above. -/
def namesIn (path : String) : Run (List String) := do
  match ← look (if path == "" then "." else path) with
  | .ok (_, .dir entries) => return "." :: ".." :: entries.map fun e => Byte.spread e.1
  | _ => return []

def isDirectory (path : String) : Run Bool := do
  match ← look path with
  | .ok (_, .dir _) => return true
  | _ => return false

def isThere (path : String) : Run Bool := do
  match ← lookEntry path with
  | .ok _ => return true
  | .error _ => return false

/-- A name may be matched by a pattern of names: points at its start are not matched by others. -/
def mayMatch (segment : Pattern) (name : String) : Bool :=
  !name.startsWith "." ||
    match segment with
    | (c, _) :: _ => c == '.'
    | [] => false

/-- The paths that a pattern matches after a path that is already known; `fuel` bounds the slashes. -/
def matching : Nat → String → Pattern → Run (List String)
  | 0, _, _ => return []
  | fuel + 1, known, pattern => do
    let segment : Pattern := pattern.takeWhile (·.1 != '/')
    let after := pattern.drop segment.length
    let slashes : Pattern := after.takeWhile (·.1 == '/')
    let rest := after.drop slashes.length
    if !segment.isOpen then
      let path := known ++ segment.text ++ slashes.text
      if rest.isEmpty then return if ← isThere path then [path] else []
      else matching fuel path rest
    else
      let names := (← namesIn known).filter fun name =>
        mayMatch segment name && segment.matches name
      if slashes.isEmpty then return names.map (known ++ ·)
      else
        let mut found : List (List String) := []
        for name in names do
          if ← isDirectory (known ++ name) then
            let path := known ++ name ++ slashes.text
            let paths ← if rest.isEmpty then pure [path] else matching fuel path rest
            found := paths :: found
        return found.reverse.flatten

/-- The names that a field stands for: the files that it matches, or else itself. -/
def namesOf (pattern : Pattern) : Run (List String) := do
  if !pattern.isOpen || (← hasOption 'f') then return [pattern.text]
  else
    match ← matching (pattern.length + 1) "" pattern with
    | [] => return [pattern.text]
    | names => return names

def expandWords (capture : Capture) (words : List Word) : Run (List String) := do
  let mut done : List (List String) := []
  for word in words do
    for pattern in ← expandPatterns capture word do
      done := (← namesOf pattern) :: done
  return done.reverse.flatten

end SpecUpgrade.Shell.Run
