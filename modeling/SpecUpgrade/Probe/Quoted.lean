/-!
Double-quoted string literals of Ruby in which nothing is interpolated.
-/

namespace SpecUpgrade.Probe

def escapeChar : Char → List Char
  | '"' => ['\\', '"']
  | '\\' => ['\\', '\\']
  | '#' => ['\\', '#']
  | '\n' => ['\\', 'n']
  | '\r' => ['\\', 'r']
  | '\t' => ['\\', 't']
  | c => [c]

def quote (text : String) : String :=
  String.ofList ('"' :: (text.toList.flatMap escapeChar ++ ['"']))

end SpecUpgrade.Probe
