import Monkey.Evaluator
import Monkey.Run.Transcript
import Monkey.Text.Utf8

/-!
# Interactive sessions

A session reads a line, runs it, tells the result, and goes on until the input
ends. All lines are run in one scope, so what a line defines is there for the
lines after it. Neither a line that is refused nor calls that nest too deeply end
the session. A null result is not told.
-/

namespace Monkey

/-- The lines of some bytes, each with its newline. The last may have none. -/
def byteLines : List UInt8 → List (List UInt8)
  | [] => []
  | byte :: bytes =>
    if byte = 10 then [byte] :: byteLines bytes
    else
      match byteLines bytes with
      | [] => [[byte]]
      | line :: lines => (byte :: line) :: lines

/-- An interactive session. -/
structure Session where
  evaluator : Evaluator
  scope : Scope
  machine : Machine

namespace Session

/-- What invites the next line. -/
def prompt : String := "» "

/-- What ends a session. -/
def farewell : String := "👋🏽"

/-- A session in which nothing is defined. -/
def start (e : Evaluator) : Session :=
  let (scope, machine) := Machine.new.root
  ⟨e, scope, machine⟩

/-- What one line did. -/
structure Step where
  printed : String
  verdict : Verdict

/-- Runs one line. -/
def step (s : Session) (line : String) : Step × Session :=
  let (verdict, machine) := s.evaluator.runSource line s.scope s.machine
  let (printed, machine) := machine.drain
  (⟨printed, verdict⟩, { s with machine })

/-- What is told about a line. -/
def Step.lines (stamp : String) (s : Step) : String :=
  match s.verdict with
  | .malformed diagnostics => diagnosticLines stamp diagnostics
  | .ran (.value .null) => ""
  | .ran (.value v) => stamped stamp v.render
  | .ran (.depthExceeded limit) => stamped stamp ("fatal: " ++ depthMessage limit)

/-- What appears on the screen for a line, after the prompt. -/
def Step.transcript (stamp : String) (s : Step) : Transcript :=
  [.printed s.printed, .written (s.lines stamp)]

/-- Runs lines in turn, with the prompt before each and before the farewell. -/
def runLines (stamp : String) : Session → List String → Transcript
  | _, [] => [.written prompt, .written (stamped stamp farewell)]
  | s, line :: lines =>
    let (step, next) := s.step line
    .written prompt :: (step.transcript stamp ++ next.runLines stamp lines)

/-- Runs all lines of an input. -/
def runInput (stamp : String) (e : Evaluator) (input : List UInt8) : Transcript :=
  (start e).runLines stamp ((byteLines input).map Utf8.decodeLossy)

end Session

end Monkey
