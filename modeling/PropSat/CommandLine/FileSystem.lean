import PropSat.CommandLine.SystemFault
import Std.Data.ExtTreeMap

/-!
# A file system in memory

A location is the list of names that lead to it from the root. A path is followed name by name from
the root or from the working directory. Every name is looked up in a directory, so a path through a
file or through nothing fails where it leaves the directories.
-/

namespace PropSat.CommandLine

/-- Devices: one that is empty and swallows everything, one that is always full, and the three
streams of the program. -/
inductive Device where
  | null
  | full
  | input
  | output
  | complaints
deriving DecidableEq, Repr

inductive Node where
  | file (bytes : ByteArray)
  | directory
  | device (d : Device)

/-- The names on the way from the root. -/
abbrev Location := List String

/-- A path as it is written. Empty names between slashes do not count. -/
structure Path where
  absolute : Bool
  names : List String
  endsInSlash : Bool
deriving DecidableEq, Repr

namespace Path

def maxNameBytes : Nat := 255
def maxBytes : Nat := 4095

/-- No path is empty, and none exceeds the limit in length. -/
def ofString (text : String) : Except SystemFault Path :=
  if text.isEmpty then .error .noSuchFile
  else if maxBytes < text.utf8ByteSize then .error .nameTooLong
  else
    let parts := text.toList.splitOn '/'
    .ok {
      absolute := parts.head? = some []
      names := (parts.filter (!·.isEmpty)).map String.ofList
      endsInSlash := parts.getLast? = some [] }

end Path

/-- The nodes by location, and where relative paths start. -/
structure FileSystem where
  nodes : Std.ExtTreeMap Location Node
  workingDirectory : Location

namespace FileSystem

def node? (fs : FileSystem) (l : Location) : Option Node := fs.nodes[l]?

def insert (fs : FileSystem) (l : Location) (n : Node) : FileSystem :=
  { fs with nodes := fs.nodes.insert l n }

theorem node?_insert (fs : FileSystem) (l k : Location) (n : Node) :
    (fs.insert l n).node? k = if l = k then some n else fs.node? k := by
  simp [node?, insert, Std.ExtTreeMap.getElem?_insert]

def makeDirectories (fs : FileSystem) (l : Location) : FileSystem :=
  { fs with
    nodes := (List.range (l.length + 1)).foldl
      (fun nodes n => nodes.insertIfNew (l.take n) .directory) fs.nodes }

def add (fs : FileSystem) (l : Location) (n : Node) : FileSystem :=
  (fs.makeDirectories l.dropLast).insert l n

/-- Where a name leads from a location, which has to be a directory. Nothing need be there yet. -/
def enter (fs : FileSystem) (l : Location) (name : String) : Except SystemFault Location :=
  match fs.node? l with
  | none => .error .noSuchFile
  | some .directory =>
      if name = "." then .ok l
      else if name = ".." then .ok l.dropLast
      else if Path.maxNameBytes < name.utf8ByteSize then .error .nameTooLong
      else .ok (l ++ [name])
  | some _ => .error .notDirectory

def follow (fs : FileSystem) (p : Path) (names : List String) : Except SystemFault Location :=
  names.foldlM fs.enter (if p.absolute then [] else fs.workingDirectory)

/-- The node that a path leads to. A slash at its end asks for a directory. -/
def find (fs : FileSystem) (path : String) : Except SystemFault Node := do
  let p ← Path.ofString path
  let l ← fs.follow p (p.names ++ if p.endsInSlash then ["."] else [])
  match fs.node? l with
  | some n => .ok n
  | none => .error .noSuchFile

/-- Where a file is written: at a location that holds no directory, in a directory that exists. -/
def place (fs : FileSystem) (path : String) : Except SystemFault Location := do
  let p ← Path.ofString path
  let parent ← fs.follow p p.names.dropLast
  let l ← fs.enter parent (if p.endsInSlash then "." else p.names.getLast?.getD ".")
  match fs.node? l with
  | some .directory => .error .isDirectory
  | _ => .ok l

def devices : List (Location × Device) :=
  (["dev", "null"], .null) :: (["dev", "full"], .full) ::
    [("stdin", "0", .input), ("stdout", "1", .output), ("stderr", "2", .complaints)].flatMap
      fun (name, number, d) =>
        [(["dev", name], d), (["dev", "fd", number], d), (["proc", "self", "fd", number], d)]

def topDirectories : List String :=
  ["bin", "boot", "dev", "etc", "home", "lib", "media", "mnt", "opt", "proc", "root", "run", "sbin",
    "srv", "sys", "tmp", "usr", "var"]

def standard : FileSystem :=
  let start : FileSystem := ⟨∅, ["tmp", "work"]⟩
  let directories := start.workingDirectory :: topDirectories.map ([·])
  devices.foldl (fun fs (l, d) => fs.add l (.device d)) (directories.foldl makeDirectories start)

end FileSystem

end PropSat.CommandLine
