import SpecUpgrade.Shell.Pattern

/-!
Fields of words. An expanded word is a row of pieces, and separators in what was not quoted divide
it: blanks among them in any number, each other one by itself.
-/

namespace SpecUpgrade.Shell

/-- A piece of an expanded word: a character, which is quoted or not and may divide fields or not; a
mark that makes a field of nothing; or the gap between two parameters. -/
inductive Piece where
  | char (c : Char) (quoted splits : Bool)
  | mark
  | gap
  deriving DecidableEq, Repr

def piecesOf (quoted : Bool) (value : String) : List Piece :=
  value.toList.map fun c => .char c quoted (!quoted)

def defaultSeparators : String := " \t\n"

def isDefaultSeparator (c : Char) : Bool := defaultSeparators.toList.contains c

/-- The field that is under way, if there is one, given from its end, before others. -/
def closeField (current : Option Pattern) (done : List Pattern) : List Pattern :=
  match current with
  | some cs => cs.reverse :: done
  | none => done

/-- The fields of pieces, last first. `current` is the field that is under way, and `spaced` is true
when blanks have ended the one before. -/
def fieldsFrom (separators : List Char) (current : Option Pattern) (spaced : Bool)
    (done : List Pattern) : List Piece → List Pattern
  | [] => closeField current done
  | .mark :: rest => fieldsFrom separators (some (current.getD [])) false done rest
  | .gap :: rest => fieldsFrom separators none false (closeField current done) rest
  | .char c quoted splits :: rest =>
    if splits && separators.contains c then
      if isDefaultSeparator c then
        match current with
        | some _ => fieldsFrom separators none true (closeField current done) rest
        | none => fieldsFrom separators none spaced done rest
      else
        match current with
        | some _ => fieldsFrom separators none false (closeField current done) rest
        | none =>
          if spaced then fieldsFrom separators none false done rest
          else fieldsFrom separators none false ([] :: done) rest
    else fieldsFrom separators (some ((c, quoted) :: current.getD [])) false done rest

def fields (separators : String) (pieces : List Piece) : List Pattern :=
  (fieldsFrom separators.toList none false [] pieces).reverse

/-- A word as one pattern, undivided; parameters are joined by a text. -/
def joined (separator : String) (pieces : List Piece) : Pattern :=
  pieces.flatMap fun
    | .char c quoted _ => [(c, quoted)]
    | .gap => separator.toList.map (·, true)
    | .mark => []

/-- The text that parameters are joined by: the first separator. -/
def joiner (separators : Option String) : String :=
  match separators with
  | some text => String.ofList (text.toList.take 1)
  | none => " "

end SpecUpgrade.Shell
