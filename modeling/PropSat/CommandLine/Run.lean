import PropSat.CommandLine.Arguments
import PropSat.CommandLine.SystemFault
import PropSat.Dimacs.Reader

/-!
# Running the command line

A run reads DIMACS text, solves it and writes the solution text. All contact with the outside goes
through a console, so the same run serves the real system and a terminal held in memory. What the
arguments say is left to a parser, and the parser of the program is put in last.
-/

namespace PropSat.CommandLine

/-- A file that cannot be opened, or is open but cannot be read. -/
inductive FileFault where
  | opening (fault : SystemFault)
  | reading (fault : SystemFault)

/-- The contacts of a run with the outside. -/
structure Console (m : Type → Type) where
  readInput : m (Except SystemFault ByteArray)
  readFile : String → m (Except FileFault ByteArray)
  writeFile : String → String → m (Except SystemFault Unit)
  print : String → m Unit
  complain : String → m Unit

/-- What was being done when a run failed, and why it failed. -/
structure Failure where
  context : String
  cause : String
deriving DecidableEq, Repr

namespace Failure

def report (f : Failure) : String := s!"Error: {f.context}\n\nCaused by:\n    {f.cause}\n"

def badInput (e : Dimacs.Error) : Failure := ⟨"invalid DIMACS input", e.message⟩

def notOpened (path : String) (fault : SystemFault) : Failure :=
  ⟨s!"failed to open {path}", fault.message⟩

def notRead (source cause : String) : Failure := ⟨s!"failed to read {source}", cause⟩

def notWritten (path : String) (fault : SystemFault) : Failure :=
  ⟨s!"failed to write {path}", fault.message⟩

end Failure

def standardInputNote : String := "No input file specified. Reading from standard input...\n"

def versionText : String := "satisfaction 1.0\n"

def helpText : String :=
  "Usage: satisfaction [-r] [-i FILE] [-o FILE] [--algorithm ALGORITHM]\n" ++
  "                    [--dpll-branching STRATEGY]\n\n" ++
  "  -i, --input FILE             input file in DIMACS format\n" ++
  "  -o, --output FILE            file for the solution in DIMACS format\n" ++
  "      --algorithm ALGORITHM    bruteforce, dpll (default), resolution or tableau\n" ++
  "      --dpll-branching STRATEGY\n" ++
  "                               two-smallest (default), naive or DLIS\n" ++
  "  -r, --return-code            exit with 1 if satisfiable and with 0 if not\n" ++
  "  -h, --help                   show this text\n" ++
  "  -V, --version                show the version\n"

def decodeText (source : String) (bytes : ByteArray) : Except Failure String :=
  match String.fromUTF8? bytes with
  | some text => .ok text
  | none => .error (.notRead source "stream did not contain valid UTF-8")

variable {m : Type → Type} [Monad m]

/-- The input text: the named file, else standard input after a note. -/
def readText (console : Console m) : Option String → m (Except Failure String)
  | none => do
      console.complain standardInputNote
      match ← console.readInput with
      | .ok bytes => return decodeText "standard input" bytes
      | .error fault => return .error (.notRead "standard input" fault.message)
  | some path => do
      match ← console.readFile path with
      | .ok bytes => return decodeText path bytes
      | .error (.opening fault) => return .error (.notOpened path fault)
      | .error (.reading fault) => return .error (.notRead path fault.message)

def writeSolution (console : Console m) (text : String) : Option String → m (Except Failure Unit)
  | none => do
      console.print text
      return .ok ()
  | some path => do
      match ← console.writeFile path text with
      | .ok () => return .ok ()
      | .error fault => return .error (.notWritten path fault)

/-- Solves the input as the options say. The result is 1 if a return code was asked for and the
input is satisfiable, else 0. -/
def solve (console : Console m) (o : Options) : m (Except Failure Nat) := do
  match ← readText console o.input? with
  | .error failure => return .error failure
  | .ok text =>
      match Dimacs.read text with
      | .error e => return .error (.badInput e)
      | .ok clauses =>
          let solution := o.solver.solveNumbered clauses
          match ← writeSolution console solution.toDimacs o.output? with
          | .error failure => return .error failure
          | .ok () => return .ok (if o.returnCode && solution.isSat then 1 else 0)

/-- Carries out what the parser finds the arguments to say, and gives the exit code. -/
def runWith (parse : List String → Except UsageError (List Setting)) (console : Console m)
    (arguments : List String) : m Nat := do
  match (parse arguments).bind Request.ofSettings with
  | .error e =>
      console.complain e.message
      return 1
  | .ok .help =>
      console.print helpText
      return 0
  | .ok .version =>
      console.print versionText
      return 0
  | .ok (.solve o) =>
      match ← solve console o with
      | .ok code => return code
      | .error failure =>
          console.complain failure.report
          return 1

def run (console : Console m) (arguments : List String) : m Nat :=
  runWith parseArguments console arguments

end PropSat.CommandLine
