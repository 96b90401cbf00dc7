/-!
# Locations in source text

A location is a line and a column, both counted from one. Reading a newline
moves to the first column of the next line, and reading any other character
moves one column to the right. `Location.pastAll` is that step repeated, so
the location of a token is `start.pastAll` of the text before it.
-/

namespace Monkey

/-- Place of a character in a text. -/
structure Location where
  line : Nat
  column : Nat
deriving DecidableEq, Repr, Inhabited

namespace Location

/-- Place of the first character of a text. -/
def start : Location := ⟨1, 1⟩

/-- Place of the character that follows `c`, when `c` is at `l`. -/
def past (l : Location) (c : Char) : Location :=
  if c = '\n' then ⟨l.line + 1, 1⟩ else ⟨l.line, l.column + 1⟩

/-- Place of the character that follows the text `cs`, when `cs` starts at `l`. -/
def pastAll (l : Location) (cs : List Char) : Location :=
  cs.foldl past l

@[simp] theorem pastAll_nil (l : Location) : l.pastAll [] = l := rfl

@[simp] theorem pastAll_cons (l : Location) (c : Char) (cs : List Char) :
    l.pastAll (c :: cs) = (l.past c).pastAll cs := rfl

/-- Reading two texts in turn is reading their concatenation. -/
theorem pastAll_append (l : Location) (cs ds : List Char) :
    l.pastAll (cs ++ ds) = (l.pastAll cs).pastAll ds := by
  simp [pastAll]

/-- Written as `line:column`. -/
def render (l : Location) : String :=
  toString l.line ++ ":" ++ toString l.column

end Location

end Monkey
