/-!
# Scopes and the store

Bindings live in frames, and a store holds the frames of a whole run. A scope
is a frame and the frames around it, innermost first. A frame is made once and
never moves, so scopes can be copied freely, and a binding made in a frame is
seen from every scope that has the frame in its chain. `Store.get?` looks for a
name frame by frame along the chain, and `Store.set` writes to the innermost
frame only.
-/

namespace Monkey

/-- Names with their values, each name at most once. -/
abbrev Bindings (α : Type) := List (String × α)

namespace Bindings

variable {α : Type}

/-- The value of a name. -/
def get? (name : String) : Bindings α → Option α
  | [] => none
  | (other, value) :: rest => if other = name then some value else get? name rest

/-- Gives a name a value, in place of an earlier one. -/
def set (name : String) (value : α) : Bindings α → Bindings α
  | [] => [(name, value)]
  | (other, old) :: rest =>
    if other = name then (name, value) :: rest else (other, old) :: set name value rest

@[simp] theorem get?_set_self (name : String) (value : α) (b : Bindings α) :
    get? name (set name value b) = some value := by
  induction b with
  | nil => simp [set, get?]
  | cons p rest ih =>
    obtain ⟨other, old⟩ := p
    by_cases h : other = name <;> simp [set, get?, h, ih]

theorem get?_set_of_ne {name other : String} (h : other ≠ name) (value : α) (b : Bindings α) :
    get? other (set name value b) = get? other b := by
  induction b with
  | nil => simp [set, get?, Ne.symm h]
  | cons p rest ih =>
    obtain ⟨third, old⟩ := p
    by_cases ht : third = name
    · simp [set, get?, ht, Ne.symm h]
    · simp [set, get?, ht, ih]

end Bindings

/-- A frame and the frames around it, innermost first. -/
structure Scope where
  frame : Nat
  outer : List Nat
deriving DecidableEq, Repr, Inhabited

/-- All frames of a scope, its own first. -/
def Scope.chain (s : Scope) : List Nat := s.frame :: s.outer

/-- All frames of a run. -/
structure Store (α : Type) where
  frames : Array (Bindings α)

namespace Store

variable {α : Type}

/-- A store without frames. -/
def empty : Store α := ⟨#[]⟩

/-- The bindings of a frame, none if there is no such frame. -/
def bindings (s : Store α) (frame : Nat) : Bindings α := s.frames[frame]?.getD []

/-- A new frame with nothing around it. -/
def root (s : Store α) : Scope × Store α :=
  (⟨s.frames.size, []⟩, ⟨s.frames.push []⟩)

/-- A new frame inside a scope. -/
def enclose (s : Store α) (outer : Scope) : Scope × Store α :=
  (⟨s.frames.size, outer.chain⟩, ⟨s.frames.push []⟩)

/-- Gives a name a value in the innermost frame of a scope. -/
def set (s : Store α) (scope : Scope) (name : String) (value : α) : Store α :=
  ⟨s.frames.modify scope.frame (Bindings.set name value)⟩

/-- Gives several names values, in order. -/
def setAll (s : Store α) (scope : Scope) : List (String × α) → Store α
  | [] => s
  | (name, value) :: rest => (s.set scope name value).setAll scope rest

/-- The value of a name in the nearest of some frames that has one. -/
def find? (s : Store α) (name : String) : List Nat → Option α
  | [] => none
  | frame :: outer =>
    match (s.bindings frame).get? name with
    | some value => some value
    | none => s.find? name outer

/-- The value of a name as seen from a scope. -/
def get? (s : Store α) (scope : Scope) (name : String) : Option α :=
  s.find? name scope.chain

/-- Writing changes the bindings of the innermost frame and of no other. -/
theorem bindings_set (s : Store α) (scope : Scope) (name : String) (value : α) (frame : Nat) :
    (s.set scope name value).bindings frame =
      if frame = scope.frame ∧ frame < s.frames.size then
        (s.bindings frame).set name value
      else s.bindings frame := by
  unfold set bindings
  by_cases hs : frame < s.frames.size
  · by_cases hf : frame = scope.frame
    · subst hf
      simp [hs, Array.getElem_modify_self]
    · simp [hs, hf, Array.getElem_modify, Ne.symm hf]
  · simp [hs]

/-- A new frame leaves the bindings of every frame as they were. -/
theorem bindings_enclose (s : Store α) (outer : Scope) (frame : Nat) :
    (s.enclose outer).2.bindings frame = s.bindings frame := by
  simp only [enclose, bindings, Array.getElem?_push]
  split
  · next h => simp [h]
  · rfl

end Store

end Monkey
