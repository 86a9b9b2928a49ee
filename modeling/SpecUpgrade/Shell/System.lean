import SpecUpgrade.Shell.Invocation
import SpecUpgrade.Utility.Children
import SpecUpgrade.Utility.Columns
import SpecUpgrade.Utility.Counts
import SpecUpgrade.Utility.Files
import SpecUpgrade.Utility.Find
import SpecUpgrade.Utility.Listing
import SpecUpgrade.Utility.Plain
import SpecUpgrade.Utility.Search
import SpecUpgrade.Utility.Sorting
import SpecUpgrade.Utility.StreamEdit
import SpecUpgrade.Utility.Streams

/-!
The system that commands run on: its programs by name, and the files that every command finds.
-/

namespace SpecUpgrade.Shell

open Utility (Program)

def plainPrograms : List (String × Program) :=
  [("[", Utility.bracket), ("basename", Utility.basename), ("cat", Utility.cat),
   ("chmod", Utility.chmod), ("cp", Utility.cp), ("cut", Utility.cut),
   ("dirname", Utility.dirname), ("echo", Utility.echo), ("env", Utility.env),
   ("false", Utility.decline), ("find", Utility.find), ("grep", Utility.grep),
   ("head", Utility.head), ("kill", Utility.kill), ("ln", Utility.ln), ("ls", Utility.ls),
   ("mkdir", Utility.mkdir), ("mv", Utility.mv), ("printenv", Utility.printenv),
   ("printf", Utility.printf), ("pwd", Utility.pwd), ("readlink", Utility.readlink),
   ("rm", Utility.rm), ("rmdir", Utility.rmdir), ("sed", Utility.sed), ("seq", Utility.seq),
   ("sleep", Utility.sleep), ("sort", Utility.sort), ("tail", Utility.tail), ("tee", Utility.tee),
   ("test", Utility.test), ("touch", Utility.touch), ("tr", Utility.tr), ("true", Utility.succeed),
   ("uniq", Utility.uniq), ("wc", Utility.wc), ("yes", Utility.yes)]

def shellNames : List String := ["dash", "bash"]

def program? (e : Engine) (name : String) : Option Program :=
  if shellNames.contains name then some (shellProgram e)
  else (plainPrograms.find? (·.1 == name)).map (·.2)

def directoryOf (entries : List (String × FileTree)) : FileTree := .dir (SortedMap.ofList entries)

def programFiles : FileTree :=
  directoryOf (("sh", .link "dash") ::
    (shellNames ++ plainPrograms.map (·.1)).map fun name => (name, programFile name))

def systemFiles : FileTree :=
  directoryOf [
    ("bin", .link "usr/bin"),
    ("boot", .dir []),
    ("dev", directoryOf [("fd", .link "/proc/self/fd"), ("full", .device .full),
      ("null", .device .null), ("shm", .dir []), ("stderr", .link "/proc/self/fd/2"),
      ("stdin", .link "/proc/self/fd/0"), ("stdout", .link "/proc/self/fd/1"),
      ("zero", .device .zero)]),
    ("etc", directoryOf [
      ("group", .ofText "root:x:0:\n"),
      ("hostname", .ofText "localhost\n"),
      ("hosts", .ofText "127.0.0.1\tlocalhost\n"),
      ("passwd", .ofText "root:x:0:0:root:/root:/bin/bash\n"),
      ("shells", .ofText "# /etc/shells: valid login shells\n/bin/sh\n/bin/bash\n/bin/dash\n")]),
    ("home", .dir []),
    ("lib", .link "usr/lib"),
    ("media", .dir []),
    ("mnt", .dir []),
    ("opt", .dir []),
    ("proc", .dir []),
    ("root", .dir []),
    ("run", .dir []),
    ("sbin", .link "usr/sbin"),
    ("srv", .dir []),
    ("sys", .dir []),
    ("tmp", .dir []),
    ("usr", directoryOf [("bin", programFiles), ("lib", .dir []), ("sbin", .dir []),
      ("share", .dir []),
      ("local", directoryOf [("bin", .dir []), ("lib", .dir []), ("sbin", .dir [])])]),
    ("var", directoryOf [("log", .dir []), ("tmp", .dir [])])]

end SpecUpgrade.Shell
