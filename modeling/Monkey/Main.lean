import Monkey.Run.CommandLine
import Monkey.Run.Elapsed

/-!
# The program

Reads files and standard input, runs them, and puts the transcripts on the
screen as they come. What is run and what is told is decided elsewhere. Here a
clock supplies the stamps.
-/

namespace Monkey.Main

/-- Why the operating system does not hand over a file. -/
def readFault : IO.Error → ReadFault
  | .noFileOrDirectory .. => .missing
  | .inappropriateType .. => .directory
  | e => .other (toString e)

/-- The bytes of a file. -/
def readContents (path : String) : IO (Except ReadFault ByteArray) := do
  try
    return .ok (← IO.FS.readBinFile path)
  catch e =>
    return .error (readFault e)

/-- Time since the clock showed `begun`. -/
def stampSince (begun : Nat) : IO String := do
  let now ← IO.monoMsNow
  return (Elapsed.mk (now - begun)).render

/-- Puts a transcript on the screen. -/
def showTranscript (t : Transcript) : IO Unit := do
  let output ← IO.getStdout
  output.putStr t.all
  output.flush

/-- Runs one file and tells whether it failed. -/
def runFile (maxDepth : Nat) (path : String) : IO (Option (String × Failure)) := do
  let begun ← IO.monoMsNow
  let contents ← readContents path
  let run ← IO.lazyPure fun _ => (Evaluator.standard maxDepth).runContents contents
  showTranscript (run.transcript (← stampSince begun))
  match run.result with
  | .ok _ => return none
  | .error f => return some (path, f)

/-- Runs files in turn. -/
def runFiles (options : Options) : IO UInt32 := do
  let failures ← options.files.filterMapM (runFile options.maxDepth)
  IO.eprint (complaintLines failures)
  return if failures.isEmpty then 0 else 1

/-- The bytes of the next line of standard input, with its newline. -/
partial def readLine (input : IO.FS.Stream) (line : ByteArray) : IO ByteArray := do
  let next ← input.read 1
  if next.isEmpty then return line
  else if next.toList = [10] then return line ++ next
  else readLine input (line ++ next)

/-- Reads and runs lines until the input ends. -/
partial def converse (begun : Nat) (s : Session) : IO Unit := do
  showTranscript [.written Session.prompt]
  let line ← readLine (← IO.getStdin) ByteArray.empty
  if line.isEmpty then
    showTranscript [.written (stamped (← stampSince begun) Session.farewell)]
  else
    let (step, next) ← IO.lazyPure fun _ => s.step (Utf8.decodeLossy line.toList)
    showTranscript (step.transcript (← stampSince begun))
    converse begun next

end Monkey.Main

/-- Runs the files that are named, or an interactive session. -/
def main (arguments : List String) : IO UInt32 := do
  match Monkey.Options.parse? arguments with
  | none =>
    IO.eprintln "usage: [--max-depth N] [FILE]..."
    return 2
  | some options =>
    if options.files.isEmpty then
      IO.print Monkey.banner
      Monkey.Main.converse (← IO.monoMsNow)
        (Monkey.Session.start (Monkey.Evaluator.standard options.maxDepth))
      return 0
    else
      Monkey.Main.runFiles options
