import SpecUpgrade.Utility.Files

/-!
Lists of files.
-/

namespace SpecUpgrade.Utility

open Shell

namespace Listing

def sign (g : Given) : FileTree → String
  | .dir _ => if g.has 'F' || g.has 'p' then "/" else ""
  | .link _ => if g.has 'F' then "@" else ""
  | t => if g.has 'F' && t.isRunnable then "*" else ""

def ordered (g : Given) (entries : List (String × FileTree)) : List (String × FileTree) :=
  let sorted := entries.mergeSort fun a b => !decide (b.1 < a.1)
  if g.has 'r' then sorted.reverse else sorted

/-- Lists entries, one on a line. -/
def entries (g : Given) (es : List (String × FileTree)) : String :=
  String.join ((ordered g es).map fun (name, t) => name ++ sign g t ++ "\n")

def inside (g : Given) (here above : FileTree) (es : List (String × FileTree)) :
    List (String × FileTree) :=
  let es := es.map fun (n, t) => (Byte.spread n, t)
  if g.has 'a' then (".", here) :: ("..", above) :: es
  else if g.has 'A' then es
  else es.filter fun e => !e.1.startsWith "."

/-- Lists a directory; `heads` gives it a heading, and `fuel` bounds the depth of those below. -/
def directory (g : Given) : Nat → Bool → Bool → String → Run (Option String)
  | 0, _, _, _ => return some ""
  | fuel + 1, heads, isFirst, path => do
    match ← Run.look path with
    | .ok (place, .dir es) =>
      let files ← Run.files
      let above := (files.get? place.dropLast).getD (.dir [])
      let listed := inside g (.dir es) above es
      let mut text := (if isFirst then "" else "\n") ++ (if heads then path ++ ":\n" else "") ++
        entries g listed
      if g.has 'R' then
        for (name, t) in ordered g listed do
          if t.isDir && name != "." && name != ".." then
            match ← directory g fuel true false (below path name) with
            | some more => text := text ++ more
            | none => pure ()
      return some text
    | _ => return none

end Listing

def ls : Program := fun words =>
  withOptions ⟨"aAdFprR1", [("all", 'a'), ("almost-all", 'A'), ("directory", 'd'), ("classify", 'F'),
    ("reverse", 'r'), ("recursive", 'R')], true, 2⟩ words fun name g => do
  let mut status := 0
  let mut plain : List (String × FileTree) := []
  let mut directories : List String := []
  let paths := if g.operands.isEmpty then ["."] else g.operands
  for path in paths do
    let follows := !(g.has 'd' || g.has 'F')
    let followed ← if follows then Run.look path else Run.lookEntry path
    let found ← if followed.toOption.isNone && follows && !path.endsWith "/"
      then Run.lookEntry path else pure followed
    match found with
    | .error e =>
      complain name ("cannot access " ++ Quote.name path ++ ": " ++ e.reason)
      status := 2
    | .ok (_, t) =>
      if t.isDir && !g.has 'd' then directories := directories ++ [path]
      else plain := plain ++ [(path, t)]
  let mut text := Listing.entries g plain
  let heads := decide (1 < paths.length) || g.has 'R'
  let sorted := directories.mergeSort fun a b => !decide (b < a)
  let mut isFirst := plain.isEmpty
  for path in if g.has 'r' then sorted.reverse else sorted do
    match ← Listing.directory g maxLevels heads isFirst path with
    | some more => text := text ++ more
    | none => pure ()
    isFirst := false
  let fine ← put name text.toList
  return if fine then status else 2

end SpecUpgrade.Utility
