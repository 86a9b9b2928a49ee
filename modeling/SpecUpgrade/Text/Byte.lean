import SpecUpgrade.Text.Utf8

/-!
Texts byte by byte. Programs that know no characters take every byte for one; to them a text is the
one that has a character for each of its bytes.
-/

namespace SpecUpgrade.Byte

def toChar (b : UInt8) : Char := Char.ofNat b.toNat

def ofChar (c : Char) : UInt8 := UInt8.ofNat c.toNat

/-- The text with a character for each byte of a text. -/
def spread (text : String) : String := String.ofList ((Utf8.encode text).map toChar)

/-- The text that has the characters of another for its bytes. -/
def gather (text : String) : String := Utf8.lossy (text.toList.map ofChar)

def chars (bytes : List UInt8) : List Char := bytes.map toChar

def bytes (cs : List Char) : List UInt8 := cs.map ofChar

end SpecUpgrade.Byte
