import PropSat.CommandLine.FileSystem
import PropSat.CommandLine.Run

/-!
# A terminal in memory

Standard input, a file system and what has been printed, as one value. A device that stands for a
stream of the program reads from it or adds to it.
-/

namespace PropSat.CommandLine

structure Terminal where
  input : ByteArray
  fileSystem : FileSystem
  printed : String
  complaints : String

namespace Terminal

def readInput (t : Terminal) : ByteArray × Terminal := (t.input, { t with input := .empty })

def print (t : Terminal) (text : String) : Terminal := { t with printed := t.printed ++ text }

def complain (t : Terminal) (text : String) : Terminal :=
  { t with complaints := t.complaints ++ text }

/-- A directory can be opened but not read. Of the devices only standard input gives anything. -/
def readFile (t : Terminal) (path : String) : Except FileFault ByteArray × Terminal :=
  match t.fileSystem.find path with
  | .error fault => (.error (.opening fault), t)
  | .ok (.file bytes) => (.ok bytes, t)
  | .ok .directory => (.error (.reading .isDirectory), t)
  | .ok (.device .input) => let (bytes, u) := t.readInput; (.ok bytes, u)
  | .ok (.device _) => (.ok .empty, t)

/-- Puts the text at a location: it goes to a device, else it becomes the content of a file. -/
def writeAt (t : Terminal) (l : Location) (text : String) : Except SystemFault Unit × Terminal :=
  match t.fileSystem.node? l with
  | some (.device .full) => (.error .noSpace, t)
  | some (.device .output) => (.ok (), t.print text)
  | some (.device .complaints) => (.ok (), t.complain text)
  | some (.device _) => (.ok (), t)
  | _ => (.ok (), { t with fileSystem := t.fileSystem.insert l (.file text.toUTF8) })

def writeFile (t : Terminal) (path text : String) : Except SystemFault Unit × Terminal :=
  match t.fileSystem.place path with
  | .error fault => (.error fault, t)
  | .ok l => t.writeAt l text

def console : Console (StateM Terminal) where
  readInput t := let (bytes, u) := t.readInput; (.ok bytes, u)
  readFile path t := t.readFile path
  writeFile path text t := t.writeFile path text
  print text t := ((), t.print text)
  complain text t := ((), t.complain text)

end Terminal

end PropSat.CommandLine
