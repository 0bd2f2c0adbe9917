import PropSat.CommandLine.Options

/-!
# Command-line arguments

The settings that arguments spell out. They may be written `-i FILE`, `-iFILE`, `-i=FILE`,
`--input FILE` and `--input=FILE`, and short flags may be joined as in `-ri FILE`. There are no
operands, and after `--` there may be nothing. This stands for the argument parser that the program
is built with; a run can be had with any other.
-/

namespace PropSat.CommandLine

namespace Key

def ofShort? : Char → Option Key
  | 'i' => some input
  | 'o' => some output
  | 'r' => some returnCode
  | 'h' => some help
  | 'V' => some version
  | _ => none

def all : List Key := [input, output, algorithm, branching, returnCode, help, version]

def ofLong? (name : String) : Option Key := all.find? (·.long = name)

def takesValue : Key → Bool
  | input | output | algorithm | branching => true
  | returnCode | help | version => false

end Key

/-- The settings of joined short keys. The first that takes a value takes all that follows it. -/
def shortSettings : List Char → Except UsageError (List Setting)
  | [] => .ok []
  | c :: cs =>
      match Key.ofShort? c with
      | none => .error (.unexpected (String.ofList ['-', c]))
      | some key =>
          if key.takesValue then
            .ok [⟨key, if cs.isEmpty then none else some (String.ofList (cs.dropWhile (· = '=')))⟩]
          else if key.ends then .ok [⟨key, none⟩]
          else (shortSettings cs).map (⟨key, none⟩ :: ·)

/-- The setting of a long key. A value attached to a flag counts for nothing. -/
def longSetting (text : List Char) : Except UsageError Setting :=
  let name := text.takeWhile (· ≠ '=')
  let rest := text.drop name.length
  match Key.ofLong? (String.ofList name) with
  | none => .error (.unexpected (String.ofList ('-' :: '-' :: text)))
  | some key =>
      .ok ⟨key, if key.takesValue && !rest.isEmpty
        then some (String.ofList (rest.dropWhile (· = '='))) else none⟩

/-- An argument that can be a value: a lone `-`, or anything that does not start with `-`. -/
def isValue : List Char → Bool
  | '-' :: _ :: _ => false
  | _ => true

def argumentSettings : List Char → Except UsageError (List Setting)
  | '-' :: '-' :: cs => (longSetting (cs.dropWhile (· = '-'))).map ([·])
  | '-' :: c :: cs => shortSettings (c :: cs)
  | cs => .error (.unexpected (String.ofList cs))

/-- The settings of all arguments, up to a key that ends the command line. -/
def settings : List (List Char) → Except UsageError (List Setting)
  | [] => .ok []
  | ['-', '-'] :: [] => .ok []
  | ['-', '-'] :: arg :: _ => .error (.unexpected (String.ofList arg))
  | arg :: rest => do
      let here ← argumentSettings arg
      match here.getLast? with
      | none => settings rest
      | some ⟨key, value?⟩ =>
          if key.ends then .ok here
          else if key.takesValue && value?.isNone then
            match rest with
            | [] => .ok here
            | next :: rest' =>
                if isValue next then
                  return here.dropLast ++ ⟨key, some (String.ofList next)⟩ :: (← settings rest')
                else return here ++ (← settings (next :: rest'))
          else return here ++ (← settings rest)

def parseArguments (arguments : List String) : Except UsageError (List Setting) :=
  settings (arguments.map String.toList)

end PropSat.CommandLine
