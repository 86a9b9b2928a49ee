import SpecUpgrade.Dump.Nesting
import SpecUpgrade.Dump.Reader

/-!
From the dump of a source to its syntax tree.
-/

namespace SpecUpgrade

def Tree.ofDump (path source dump : String) : Except TreeError Tree := do
  Dump.guardNesting dump
  let (head, children) ← Dump.read dump
  let (root, b) ← Dump.addNode (Builder.start path source) head children
  b.finish root

end SpecUpgrade
