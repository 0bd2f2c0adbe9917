/-!
# Faults of the system

Why the system refuses to open, read or write a file: a description and the number that belongs to
it.
-/

namespace PropSat.CommandLine

structure SystemFault where
  description : String
  code : Nat
deriving DecidableEq, Repr

namespace SystemFault

def message (f : SystemFault) : String := s!"{f.description} (os error {f.code})"

def noSuchFile : SystemFault := ⟨"No such file or directory", 2⟩
def notDirectory : SystemFault := ⟨"Not a directory", 20⟩
def isDirectory : SystemFault := ⟨"Is a directory", 21⟩
def noSpace : SystemFault := ⟨"No space left on device", 28⟩
def nameTooLong : SystemFault := ⟨"File name too long", 36⟩

end SystemFault

end PropSat.CommandLine
