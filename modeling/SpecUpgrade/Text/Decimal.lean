/-!
Whole numbers in decimal texts.
-/

namespace SpecUpgrade.Decimal

def takeDigits (cs : List Char) : List Char × List Char :=
  let taken := cs.takeWhile Char.isDigit
  (taken, cs.drop taken.length)

def valueOf (cs : List Char) : Nat := cs.foldl (fun n c => n * 10 + (c.toNat - '0'.toNat)) 0

def isBlank (c : Char) : Bool := c == ' ' || (9 ≤ c.toNat && c.toNat ≤ 13)

/-- The whole number that a text is, with a sign and blanks around it or not. -/
def whole? (text : String) : Option Int :=
  let cs := ((text.toList.dropWhile isBlank).reverse.dropWhile isBlank).reverse
  let (negative, ds) := match cs with
    | '-' :: ds => (true, ds)
    | '+' :: ds => (false, ds)
    | ds => (false, ds)
  if ds.isEmpty || !ds.all Char.isDigit then none
  else
    let n : Int := valueOf ds
    some (if negative then -n else n)

end SpecUpgrade.Decimal
