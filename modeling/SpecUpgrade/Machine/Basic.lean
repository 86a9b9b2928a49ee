import SpecUpgrade.FileTree.Change

/-!
What the processes of a machine share: the files, what they have opened, their working directories
and the time. An open file stays what it is when it is moved or removed.
-/

namespace SpecUpgrade

namespace Machine

/-- What an open file leads to. Pipes and files that have been removed have a store. -/
inductive Target where
  | file (place : Location)
  | directory (place : Location)
  | device (kind : Device)
  | removed (store : Nat)
  | pipe (store : Nat)
  deriving DecidableEq, Repr

/-- An open file, with the place in it where the next byte is read or written. -/
structure OpenFile where
  target : Target
  offset : Nat := 0
  reads : Bool := false
  writes : Bool := false
  appends : Bool := false
  deriving Repr

inductive Mode where
  | read
  | write
  | append
  | update
  deriving DecidableEq, Repr

/-- Bytes in the order they were put in: those to be read first, and then the blocks that came
later, the last of them first. -/
structure Store where
  front : List UInt8 := []
  back : List (List UInt8) := []
  size : Nat := 0

namespace Store

def content (s : Store) : List UInt8 := s.front ++ s.back.reverse.flatten

def ofBytes (bytes : List UInt8) : Store := ⟨bytes, [], bytes.length⟩

def append (s : Store) (bytes : List UInt8) : Store :=
  { s with back := bytes :: s.back, size := s.size + bytes.length }

end Store

inductive Ending where
  | exited (status : Nat)
  | killed (signal : Nat)
  deriving DecidableEq, Repr

def Ending.status : Ending → Nat
  | exited status => status
  | killed signal => 128 + signal

end Machine

open Machine in
/-- The clock counts milliseconds. Processes that have ended keep their ending, and signals wait for
the process they are for. The budget is the number of steps that all processes may still take. -/
structure Machine where
  files : FileTree
  opened : Array OpenFile := #[]
  stores : Array Store := #[]
  places : List (Nat × Location) := []
  clock : Nat := 0
  limit : Option Nat := none
  budget : Nat := 0
  nextProcess : Nat := 0
  running : List Nat := []
  ended : List (Nat × Ending) := []
  signals : List (Nat × Nat) := []

namespace Machine

/-! Working directories. -/

/-- The working directory of a process. -/
def here (m : Machine) (process : Nat) : Location :=
  ((m.places.find? (·.1 == process)).map (·.2)).getD []

def setHere (m : Machine) (process : Nat) (place : Location) : Machine :=
  { m with places := (process, place) :: m.places.filter (·.1 != process) }

/-! Open files. -/

def addOpen (m : Machine) (f : OpenFile) : Nat × Machine :=
  (m.opened.size, { m with opened := m.opened.push f })

/-- Makes a pipe and returns the numbers of its two ends, to read from and to write to. -/
def addPipe (m : Machine) (content : List UInt8) : (Nat × Nat) × Machine :=
  let store := m.stores.size
  let m := { m with stores := m.stores.push (.ofBytes content) }
  let (reader, m) := m.addOpen { target := .pipe store, reads := true }
  let (writer, m) := m.addOpen { target := .pipe store, writes := true }
  ((reader, writer), m)

def openPlace (m : Machine) (mode : Mode) (place : Location) (fileMode : Nat) :
    Except FileError Nat × Machine :=
  let flags (t : Target) : OpenFile :=
    ⟨t, 0, mode = .read || mode = .update, mode ≠ .read, mode = .append⟩
  match m.files.get? place, mode with
  | some (.dir _), .read =>
    let (n, m) := m.addOpen (flags (.directory place))
    (.ok n, m)
  | some (.dir _), _ => (.error .isDirectory, m)
  | some (.device kind), _ =>
    let (n, m) := m.addOpen (flags (.device kind))
    (.ok n, m)
  | some (.file _ fileMode), .write =>
    let m := { m with files := .set (.file [] fileMode) m.files place }
    let (n, m) := m.addOpen (flags (.file place))
    (.ok n, m)
  | some _, _ =>
    let (n, m) := m.addOpen (flags (.file place))
    (.ok n, m)
  | none, .read => (.error .missing, m)
  | none, _ =>
    let m := { m with files := .set (.file [] fileMode) m.files place }
    let (n, m) := m.addOpen (flags (.file place))
    (.ok n, m)

/-- Opens what a path leads to; a file that is to be written is made if it is missing. -/
def openPath (m : Machine) (here : Location) (mode : Mode) (path : String) (fileMode : Nat) :
    Except FileError Nat × Machine :=
  match if mode = .read then m.files.canonical here path else m.files.filePlace here path with
  | .error e => (.error e, m)
  | .ok place => m.openPlace mode place fileMode

def contentOf (m : Machine) : Target → List UInt8
  | .file place => (m.files.bytesAt place).toOption.getD []
  | .removed store => (m.stores.getD store {}).content
  | .pipe store => (m.stores.getD store {}).content
  | _ => []

def setContent (m : Machine) (target : Target) (content : List UInt8) : Machine :=
  match target with
  | .file place => { m with files := m.files.writeAt place content }
  | .removed store => { m with stores := m.stores.setIfInBounds store (.ofBytes content) }
  | .pipe store => { m with stores := m.stores.setIfInBounds store (.ofBytes content) }
  | _ => m

/-- So many zeros are read at most from the device that has no end. -/
def maxZeros : Nat := 65536

/-- Reads bytes from an open file. Of those that are left a first part is taken. -/
def readOpen (m : Machine) (number : Nat) (cut : List UInt8 → List UInt8) :
    Except FileError (List UInt8) × Machine :=
  match m.opened[number]? with
  | none => (.error .badDescriptor, m)
  | some f =>
    if !f.reads then (.error .badDescriptor, m)
    else
      match f.target with
      | .directory _ => (.error .isDirectory, m)
      | .device .null => (.ok [], m)
      | .device _ => (.ok (cut (List.replicate maxZeros 0)), m)
      | .pipe store =>
        let content := (m.stores.getD store {}).content
        let bytes := cut content
        let rest := Store.ofBytes (content.drop bytes.length)
        (.ok bytes, { m with stores := m.stores.setIfInBounds store rest })
      | target =>
        let bytes := cut ((m.contentOf target).drop f.offset)
        let f := { f with offset := f.offset + bytes.length }
        (.ok bytes, { m with opened := m.opened.setIfInBounds number f })

/-- A content with bytes put over it from an offset on; a gap before them is filled with zeros. -/
def overwrite (content : List UInt8) (offset : Nat) (bytes : List UInt8) : List UInt8 :=
  if offset = content.length then content ++ bytes
  else
    content.take offset ++ List.replicate (offset - content.length) 0 ++ bytes ++
      content.drop (offset + bytes.length)

def writeOpen (m : Machine) (number : Nat) (bytes : List UInt8) :
    Except FileError Unit × Machine :=
  match m.opened[number]? with
  | none => (.error .badDescriptor, m)
  | some f =>
    if !f.writes then (.error .badDescriptor, m)
    else
      match f.target with
      | .directory _ => (.error .badDescriptor, m)
      | .device .full => (if bytes.isEmpty then .ok () else .error .noSpace, m)
      | .device _ => (.ok (), m)
      | .pipe store =>
        (.ok (), { m with
          stores := m.stores.setIfInBounds store ((m.stores.getD store {}).append bytes) })
      | target =>
        if bytes.isEmpty then (.ok (), m)
        else
          let content := m.contentOf target
          let offset := if f.appends then content.length else f.offset
          let m := m.setContent target (overwrite content offset bytes)
          let f := { f with offset := offset + bytes.length }
          (.ok (), { m with opened := m.opened.setIfInBounds number f })

/-! Changes of files that may be open. -/

/-- Where a directory is that has been taken away with what stands at a place. Names that nothing
has lead there, so that only the way upwards is left. -/
def lostPlace (place p : Location) : Location :=
  if place.isPrefixOf p then
    place.dropLast ++ List.replicate (p.length + 1 - place.length) ""
  else p

/-- A place is that of a directory that has been taken away. -/
def isLost (p : Location) : Bool := p.contains ""

/-- What is open below a place that is taken away gets a store of its own, and a working directory
there is lost. -/
def forget (m : Machine) (place : Location) : Machine :=
  let m := (List.range m.opened.size).foldl (fun m i =>
    match m.opened[i]? with
    | some f =>
      match f.target with
      | .file p =>
        if place.isPrefixOf p then
          let f := { f with target := .removed m.stores.size }
          { m with
            stores := m.stores.push (.ofBytes (m.contentOf (.file p)))
            opened := m.opened.setIfInBounds i f }
        else m
      | _ => m
    | none => m) m
  { m with places := m.places.map fun (process, p) => (process, lostPlace place p) }

/-- What is open below a place that is moved goes along. -/
def follow (m : Machine) (old new : Location) : Machine :=
  let moved (p : Location) : Location :=
    if old.isPrefixOf p then new ++ p.drop old.length else p
  { m with
    opened := m.opened.map fun f =>
      match f.target with
      | .file p => { f with target := .file (moved p) }
      | .directory p => { f with target := .directory (moved p) }
      | _ => f
    places := m.places.map fun (process, p) => (process, moved p) }

def removeTree (m : Machine) (place : Location) : Machine :=
  let m := m.forget place
  { m with files := m.files.erase place }

/-- Changes the files by what is done for a path. -/
def change (m : Machine) (f : FileTree → Except FileError FileTree) :
    Except FileError Unit × Machine :=
  match f m.files with
  | .ok files => (.ok (), { m with files := files })
  | .error e => (.error e, m)

def removeFile (m : Machine) (here : Location) (path : String) : Except FileError Unit × Machine :=
  match m.files.removeFile here path with
  | .error e => (.error e, m)
  | .ok (files, place) => (.ok (), { m.forget place with files := files })

def removeDir (m : Machine) (here : Location) (path : String) : Except FileError Unit × Machine :=
  match m.files.removeDir here path with
  | .error e => (.error e, m)
  | .ok (files, place) => (.ok (), { m.forget place with files := files })

def rename (m : Machine) (here : Location) (source target : String) :
    Except FileError Unit × Machine :=
  match m.files.rename here source target with
  | .error e => (.error e, m)
  | .ok (files, old, new) =>
    if old = new then (.ok (), m)
    else (.ok (), { (m.forget new).follow old new with files := files })

end Machine
end SpecUpgrade
