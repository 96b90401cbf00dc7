import Monkey.Diagnostic

/-!
# Transcripts

A run puts text on the screen from two sides: what the program prints, and what
is written about the program. A transcript keeps the pieces in order and tells
the sides apart. Lines about a program start with a stamp in parentheses, the
time since the run began.
-/

namespace Monkey

/-- One piece of text. -/
inductive Piece where
  /-- Printed by the program. -/
  | printed (text : String)
  /-- Written about the program. -/
  | written (text : String)
deriving DecidableEq, Repr

/-- The text of a piece. -/
def Piece.text : Piece → String
  | printed text => text
  | written text => text

/-- Pieces of text in the order in which they appeared. -/
abbrev Transcript := List Piece

namespace Transcript

/-- All text. -/
def all (t : Transcript) : String :=
  String.join (t.map Piece.text)

/-- What the program printed. -/
def printed (t : Transcript) : String :=
  String.join (t.filterMap fun
    | .printed text => some text
    | .written _ => none)

/-- What was written about the program. -/
def written (t : Transcript) : String :=
  String.join (t.filterMap fun
    | .printed _ => none
    | .written text => some text)

end Transcript

/-- A line with a stamp. -/
def stamped (stamp text : String) : String :=
  "(" ++ stamp ++ ") " ++ text ++ "\n"

/-- The lines about a source text that was refused. -/
def diagnosticLines (stamp : String) (diagnostics : List Diagnostic) : String :=
  stamped stamp "Error:" ++
    String.join (diagnostics.map fun d => stamped stamp ("\t" ++ d.message))

end Monkey
