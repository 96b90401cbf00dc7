import Monkey.Evaluator
import Monkey.Run.Transcript
import Monkey.Text.Utf8

/-!
# Running whole sources

A source is read, parsed and run as one program on a machine of its own, so
sources that are run one after the other do not see each other. A run fails if
the bytes cannot be read as text, if the text is refused, if the program's value
is an error, or if calls nest too deeply. Diagnostics are written out, and
nothing is evaluated then.
-/

namespace Monkey

/-- Why the bytes of a source cannot be had. -/
inductive ReadFault where
  | notText
  | missing
  | directory
  | other (text : String)
deriving DecidableEq, Repr

/-- Wording of a read fault. -/
def ReadFault.message : ReadFault → String
  | notText => "stream did not contain valid UTF-8"
  | missing => "No such file or directory (os error 2)"
  | directory => "Is a directory (os error 21)"
  | other text => text

/-- Why a run fails. -/
inductive Failure where
  | malformed (diagnostics : List Diagnostic)
  /-- The program's value is an error, which is shown as `text`. -/
  | runtime (text : String)
  | fatal (limit : Nat)
  | unreadable (fault : ReadFault)
deriving DecidableEq, Repr

namespace Failure

/-- Wording of a failure. -/
def message : Failure → String
  | malformed diagnostics => malformedMessage diagnostics
  | runtime text => text
  | fatal limit => "fatal: " ++ depthMessage limit
  | unreadable fault => fault.message

/-- What is written about a failed run while it fails. -/
def lines (stamp : String) : Failure → String
  | malformed diagnostics => diagnosticLines stamp diagnostics
  | _ => ""

/-- Whether a failure is still to be told when all runs are over. -/
def isUntold : Failure → Bool
  | malformed _ => false
  | _ => true

end Failure

/-- How the run of a source went. -/
structure BatchRun where
  result : Except Failure Value
  printed : String

namespace BatchRun

/-- A run that does not begin. -/
def failed (f : Failure) : BatchRun := ⟨.error f, ""⟩

/-- What becomes of a run that ends as the verdict says. -/
def judge : Verdict → Except Failure Value
  | .malformed diagnostics => .error (.malformed diagnostics)
  | .ran (.depthExceeded limit) => .error (.fatal limit)
  | .ran (.value v) =>
    match v with
    | .error _ => .error (.runtime v.render)
    | v => .ok v

/-- What appears on the screen. -/
def transcript (stamp : String) (r : BatchRun) : Transcript :=
  match r.result with
  | .ok _ => [.printed r.printed]
  | .error f => [.printed r.printed, .written (f.lines stamp)]

end BatchRun

namespace Evaluator

/-- Runs a text as one program. -/
def runText (e : Evaluator) (source : String) : BatchRun :=
  let (scope, m) := Machine.new.root
  let (verdict, m) := e.runSource source scope m
  ⟨BatchRun.judge verdict, m.printed⟩

/-- Runs the bytes of a source as one program. -/
def runBytes (e : Evaluator) (bytes : ByteArray) : BatchRun :=
  match Utf8.decode? bytes with
  | some source => e.runText source
  | none => .failed (.unreadable .notText)

/-- Runs a source that may be out of reach. -/
def runContents (e : Evaluator) (contents : Except ReadFault ByteArray) : BatchRun :=
  match contents with
  | .ok bytes => e.runBytes bytes
  | .error fault => .failed (.unreadable fault)

end Evaluator

/-- How the runs of several files went. -/
structure FilesRun where
  transcript : Transcript
  /-- The files that failed, in order. -/
  failures : List (String × Failure)

/-- Runs files in turn, each with the standard library. A file that fails does not
stop those after it. -/
def runFiles (stamp : String) (maxDepth : Nat) :
    List (String × Except ReadFault ByteArray) → FilesRun
  | [] => ⟨[], []⟩
  | (path, contents) :: rest =>
    let run := (Evaluator.standard maxDepth).runContents contents
    let later := runFiles stamp maxDepth rest
    let failures := match run.result with
      | .ok _ => later.failures
      | .error f => (path, f) :: later.failures
    ⟨run.transcript stamp ++ later.transcript, failures⟩

end Monkey
