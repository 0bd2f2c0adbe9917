import PropSat.Solver

/-!
# Command-line options

What a command line can ask for, and the options of a run. They are taken from settings, each a key
with its value, however these were written. Each key may be given once, and a choice that is named
without a value keeps its default.
-/

namespace PropSat.CommandLine

inductive Key where
  | input
  | output
  | algorithm
  | branching
  | returnCode
  | help
  | version
deriving DecidableEq, Repr

namespace Key

def long : Key → String
  | input => "input"
  | output => "output"
  | algorithm => "algorithm"
  | branching => "dpll-branching"
  | returnCode => "return-code"
  | help => "help"
  | version => "version"

/-- Nothing after the key is looked at. -/
def ends : Key → Bool
  | help | version => true
  | _ => false

end Key

inductive UsageError where
  | unexpected (argument : String)
  | missingValue (key : Key)
  | invalidValue (key : Key) (value : String)
  | repeated (key : Key)
deriving DecidableEq, Repr

def UsageError.message : UsageError → String
  | unexpected argument => s!"error: unexpected argument '{argument}'\n"
  | missingValue key => s!"error: '--{key.long}' needs a value\n"
  | invalidValue key value => s!"error: '{value}' is not a value of '--{key.long}'\n"
  | repeated key => s!"error: '--{key.long}' may be given only once\n"

/-- A key as it stands on the command line, with the value attached or following, if any. -/
structure Setting where
  key : Key
  value? : Option String
deriving DecidableEq, Repr

structure Options where
  input? : Option String
  output? : Option String
  returnCode : Bool
  solver : Solver

inductive Request where
  | help
  | version
  | solve (options : Options)

def branchingOfName? : String → Option Branching
  | "two-smallest" => some .twoSmallest
  | "naive" => some .firstLiteral
  | "DLIS" => some .mostOccurrences
  | _ => none

def solverOfName? (branching : Branching) : String → Option Solver
  | "bruteforce" => some .exhaustive
  | "dpll" => some (.dpll branching)
  | "resolution" => some .resolution
  | "tableau" => some .tableau
  | _ => none

/-- The value of a key that stands at most once: nothing when it is absent. -/
def valueOf? (key : Key) (given : List Setting) : Except UsageError (Option String) :=
  match given.filter (·.key = key) with
  | [] => .ok none
  | [⟨_, value?⟩] => .ok value?
  | _ => .error (.repeated key)

def fileOf? (key : Key) (given : List Setting) : Except UsageError (Option String) := do
  let value? ← valueOf? key given
  if value?.isNone && given.any (·.key = key) then .error (.missingValue key)
  else return value?

def choiceOf {β : Type} (key : Key) (default : String) (ofName? : String → Option β)
    (given : List Setting) : Except UsageError β := do
  let name := (← valueOf? key given).getD default
  match ofName? name with
  | some choice => .ok choice
  | none => .error (.invalidValue key name)

def Options.ofSettings (given : List Setting) : Except UsageError Options := do
  let branching ← choiceOf .branching "two-smallest" branchingOfName? given
  let solver ← choiceOf .algorithm "dpll" (solverOfName? branching) given
  let input? ← fileOf? .input given
  let output? ← fileOf? .output given
  let _ ← valueOf? .returnCode given
  return ⟨input?, output?, given.any (·.key = .returnCode), solver⟩

def Request.ofSettings (given : List Setting) : Except UsageError Request := do
  if given.any (·.key = .help) then return .help
  else if given.any (·.key = .version) then return .version
  else return .solve (← Options.ofSettings given)

end PropSat.CommandLine
