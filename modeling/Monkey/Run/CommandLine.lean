import Monkey.Number.Digits
import Monkey.Run.Batch
import Monkey.Run.Session

/-!
# The command line

Arguments are files to run and the option `--max-depth`, which takes a number in
the next argument or after an equals sign and may be given once. Arguments after
`--` are all files. Without files an interactive session starts, after a banner.
-/

namespace Monkey

/-- What the arguments ask for. -/
structure Options where
  files : List String
  maxDepth : Nat
deriving DecidableEq, Repr

namespace Options

/-- The option that sets the depth limit. -/
def depthFlag : String := "--max-depth"

/-- A depth limit: digits, perhaps after a plus sign, for a number below `2^64`. -/
def depth? (text : String) : Option Nat :=
  let digits := match text.toList with
    | '+' :: rest => rest
    | all => all
  if digits.isEmpty || !digits.all Char.isDigit then none
  else if digitsValue digits < UInt64.size then some (digitsValue digits)
  else none

/-- Arguments that are all files. An empty name is no file. -/
def files? (arguments : List String) : Option (List String) :=
  if arguments.all (· != "") then some arguments else none

/-- Reads arguments, with the depth limit that was given before them, if any. -/
def collect? (depth : Option Nat) : List String → Option (List String × Option Nat)
  | [] => some ([], depth)
  | argument :: rest =>
    if argument = "--" then do
      let files ← files? rest
      return (files, depth)
    else if argument = depthFlag then
      match depth, rest with
      | none, value :: rest => do
        let limit ← depth? value
        collect? (some limit) rest
      | _, _ => none
    else if (depthFlag ++ "=").toList.isPrefixOf argument.toList then
      match depth with
      | none => do
        let limit ← depth? (argument.drop (depthFlag.length + 1)).toString
        collect? (some limit) rest
      | some _ => none
    else if argument = "" ∨ (argument.front = '-' ∧ argument ≠ "-") then none
    else do
      let (files, final) ← collect? depth rest
      return (argument :: files, final)

/-- Reads the arguments of the program. Gives nothing if they make no sense. -/
def parse? (arguments : List String) : Option Options := do
  let (files, depth) ← collect? none arguments
  return ⟨files, depth.getD Evaluator.defaultDepth⟩

end Options

/-- How the program ends. -/
structure Exit where
  code : Nat
  transcript : Transcript
  /-- What goes to standard error. -/
  complaints : String

/-- The line before an interactive session. -/
def banner : String := "Croeso i mwnci. ^D i adael.\n"

/-- The lines about failures that have not been told. -/
def complaintLines (failures : List (String × Failure)) : String :=
  String.join ((failures.filter fun (_, f) => f.isUntold).map fun (path, f) =>
    path ++ ": " ++ f.message ++ "\n")

namespace Exit

/-- The program refuses its arguments. -/
def usage : Exit := ⟨2, [], ""⟩

/-- The program has run files. -/
def ofFiles (run : FilesRun) : Exit :=
  ⟨if run.failures.isEmpty then 0 else 1, run.transcript, complaintLines run.failures⟩

/-- The program has run an interactive session. -/
def ofSession (t : Transcript) : Exit := ⟨0, .written banner :: t, ""⟩

end Exit

/-- Runs the program with some arguments, files and input. -/
def runCommand (stamp : String) (contents : String → Except ReadFault ByteArray)
    (input : List UInt8) (arguments : List String) : Exit :=
  match Options.parse? arguments with
  | none => .usage
  | some options =>
    if options.files.isEmpty then
      .ofSession (Session.runInput stamp (Evaluator.standard options.maxDepth) input)
    else
      .ofFiles (runFiles stamp options.maxDepth
        (options.files.map fun path => (path, contents path)))

end Monkey
