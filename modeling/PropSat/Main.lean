import PropSat.CommandLine.Run

/-!
# The program

The command line on the standard streams and the files of the system.
-/

namespace PropSat.CommandLine

def SystemFault.ofError : IO.Error → SystemFault
  | .noFileOrDirectory _ code details | .permissionDenied _ code details
  | .inappropriateType _ code details | .invalidArgument _ code details
  | .alreadyExists _ code details | .resourceExhausted _ code details
  | .noSuchThing _ code details => ⟨details, code.toNat⟩
  | .resourceBusy code details | .resourceVanished code details | .unsupportedOperation code details
  | .hardwareFault code details | .illegalOperation code details | .protocolError code details
  | .timeExpired code details | .unsatisfiedConstraints code details
  | .otherError code details => ⟨details, code.toNat⟩
  | e => ⟨toString e, 0⟩

def attempt {β : Type} (action : IO β) : IO (Except SystemFault β) := do
  match ← action.toBaseIO with
  | .ok value => return .ok value
  | .error e => return .error (.ofError e)

def systemConsole : Console IO where
  readInput := do attempt (← IO.getStdin).readBinToEnd
  readFile path := do
    match ← attempt (IO.FS.Handle.mk path .read) with
    | .error fault => return .error (.opening fault)
    | .ok handle => return (← attempt handle.readBinToEnd).mapError .reading
  writeFile path text := attempt (IO.FS.writeFile path text)
  print text := IO.print text
  complain text := IO.eprint text

end PropSat.CommandLine

open PropSat.CommandLine in
def main (arguments : List String) : IO UInt32 := do
  return (← run systemConsole arguments).toUInt32
