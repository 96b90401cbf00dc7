import Monkey.Library
import Monkey.Value.Operator

/-!
# Values that hold no signal

A value is clean if it is not a signal and holds none, at any depth. A `Datum` is
a clean value. What an operator or a standard native function makes of data is
settled: it is clean or an error (`Value.Settled`). So on data these functions can
be seen as functions that give a datum or fail with a message (`Datum.settle`),
and no value they ever give has to be asked whether it is a signal.
-/

namespace Monkey

namespace Value

mutual

/-- Neither an error nor a returned value, and none inside. -/
def Clean : Value → Prop
  | returned _ => False
  | error _ => False
  | array elements => CleanAll elements
  | hash entries => CleanEntries entries
  | integer _ | float _ | boolean _ | string _ | null | function _ | native _ => True
termination_by structural v => v

/-- Values that are all clean. -/
def CleanAll : List Value → Prop
  | [] => True
  | v :: vs => v.Clean ∧ CleanAll vs
termination_by structural vs => vs

/-- Entries whose keys and values are all clean. -/
def CleanEntries : List (HashKey × Value × Value) → Prop
  | [] => True
  | (_, key, value) :: entries => key.Clean ∧ value.Clean ∧ CleanEntries entries
termination_by structural entries => entries

end

theorem cleanAll_iff {vs : List Value} : CleanAll vs ↔ ∀ v ∈ vs, v.Clean := by
  induction vs with
  | nil => simp [CleanAll]
  | cons v vs ih => simp [CleanAll, ih]

theorem cleanEntries_iff {entries : List (HashKey × Value × Value)} :
    CleanEntries entries ↔ ∀ e ∈ entries, e.2.1.Clean ∧ e.2.2.Clean := by
  induction entries with
  | nil => simp [CleanEntries]
  | cons e entries ih =>
    obtain ⟨hk, k, v⟩ := e
    simp [CleanEntries, ih, and_assoc]

theorem Clean.isSignal {v : Value} (h : v.Clean) : v.isSignal = false := by
  cases v with
  | returned v => exact absurd h (by simp [Clean])
  | error m => exact absurd h (by simp [Clean])
  | _ => rfl

/-- A clean value, or an error. -/
inductive Settled : Value → Prop
  | error (message : String) : Settled (.error message)
  | clean {v : Value} (h : v.Clean) : Settled v

theorem settled_fault (f : Fault) : f.toValue.Settled :=
  .error _

theorem settled_ofInt (z : Int) : (ofInt z).Settled := by
  unfold ofInt
  split
  · exact .clean trivial
  · exact settled_fault _

theorem settled_unary (operator : String) (v : Value) : (unary operator v).Settled := by
  unfold unary
  split
  · exact .clean trivial
  · split
    · exact settled_ofInt _
    · exact .clean trivial
    · exact settled_fault _
  · exact settled_fault _

theorem settled_integerBinary (operator : String) (a b : Int64) :
    (integerBinary operator a b).Settled := by
  unfold integerBinary
  split
  · exact settled_ofInt _
  · exact settled_ofInt _
  · exact settled_ofInt _
  · split
    · exact settled_fault _
    · exact settled_ofInt _
  all_goals first | exact .clean trivial | exact settled_fault _

theorem settled_floatBinary (operator : String) (a b : Float) :
    (floatBinary operator a b).Settled := by
  unfold floatBinary
  split
  case h_4 =>
    split
    · exact settled_fault _
    · exact .clean trivial
  all_goals first | exact .clean trivial | exact settled_fault _

theorem settled_stringBinary (operator : String) (a b : String) :
    (stringBinary operator a b).Settled := by
  unfold stringBinary
  split <;> first | exact .clean trivial | exact settled_fault _

theorem settled_otherBinary (operator : String) (a b : Value) :
    (otherBinary operator a b).Settled := by
  unfold otherBinary
  split
  · exact .clean trivial
  · exact .clean trivial
  · split
    · exact settled_fault _
    · exact settled_fault _

theorem settled_binary (operator : String) (a b : Value) : (binary operator a b).Settled := by
  unfold binary
  split
  · exact settled_integerBinary _ _ _
  · exact settled_floatBinary _ _ _
  · exact settled_stringBinary _ _ _
  · exact settled_otherBinary _ _ _

theorem clean_elementAt {elements : List Value} (h : CleanAll elements) (position : Int64) :
    (elementAt elements position).Clean := by
  unfold elementAt
  split
  · trivial
  · cases hv : elements[position.toInt.toNat]? with
    | none => trivial
    | some v => exact cleanAll_iff.mp h v (List.mem_of_getElem? hv)

theorem settled_filedUnder {entries : List (HashKey × Value × Value)} (h : CleanEntries entries)
    (key : Value) : (filedUnder entries key).Settled := by
  unfold filedUnder
  split
  · next filed _ =>
    refine .clean ?_
    cases hfound : HashTable.find? filed entries with
    | none => trivial
    | some entry =>
      obtain ⟨e, he, rfl⟩ := HashTable.exists_mem_of_find? hfound
      exact (cleanEntries_iff.mp h e he).2
  · exact settled_fault _

theorem settled_index {target : Value} (h : target.Clean) (key : Value) :
    (index target key).Settled := by
  unfold index
  split
  · exact .clean (clean_elementAt h _)
  · exact settled_filedUnder h _
  · exact settled_fault _

end Value

namespace Native

theorem settled_length (arguments : List Value) : (length arguments).Settled := by
  unfold length
  split <;> first | exact .clean trivial | exact Value.settled_fault _

theorem settled_onArray (function : Native) {f : List Value → Value}
    (hf : ∀ elements, Value.CleanAll elements → (f elements).Clean) {arguments : List Value}
    (h : Value.CleanAll arguments) : (onArray function f arguments).Settled := by
  unfold onArray
  split
  · exact .clean (hf _ h.1)
  · exact Value.settled_fault _
  · exact Value.settled_fault _

theorem clean_tail {elements : List Value} (h : Value.CleanAll elements) :
    (tail elements).Clean := by
  cases elements with
  | nil => trivial
  | cons v vs => exact h.2

theorem settled_append {arguments : List Value} (h : Value.CleanAll arguments) :
    (append arguments).Settled := by
  unfold append
  split
  · next elements v =>
    refine .clean (Value.cleanAll_iff.mpr fun w hw => ?_)
    rcases List.mem_append.mp hw with hw | hw
    · exact Value.cleanAll_iff.mp h.1 w hw
    · exact List.mem_singleton.mp hw ▸ h.2.1
  · exact Value.settled_fault _
  · exact Value.settled_fault _

end Native

/-- What a standard native function gives on clean arguments is clean or an error. -/
theorem Library.settled_call (f : Native) {arguments : List Value}
    (h : Value.CleanAll arguments) : (standard.call f arguments).value.Settled := by
  cases f with
  | len => exact Native.settled_length _
  | puts => exact .clean trivial
  | first =>
    refine Native.settled_onArray _ (fun elements he => ?_) h
    cases elements with
    | nil => trivial
    | cons v vs => exact he.1
  | last =>
    refine Native.settled_onArray _ (fun elements he => ?_) h
    cases hl : elements.getLast? with
    | none => trivial
    | some v => exact Value.cleanAll_iff.mp he v (List.mem_of_getLast? hl)
  | rest => exact Native.settled_onArray _ (fun _ => Native.clean_tail) h
  | push => exact Native.settled_append h
  | host name => exact .error _

/-! ## Data -/

/-- A value that is no signal and holds none. -/
structure Datum where
  value : Value
  clean : value.Clean

namespace Datum

/-- The message of an error. -/
def message? : Value → Option String
  | .error message => some message
  | _ => none

theorem clean_of_message?_eq_none {v : Value} (h : v.Settled) (hm : message? v = none) :
    v.Clean := by
  cases h with
  | error message => simp [message?] at hm
  | clean h => exact h

/-- A settled value as a datum, or as a failure with the message of the error. -/
def settle (v : Value) (h : v.Settled) : Except String Datum :=
  match hm : message? v with
  | some message => .error message
  | none => .ok ⟨v, clean_of_message?_eq_none h hm⟩

/-- The value that stands for a datum or for a failure. -/
def toValue : Except String Datum → Value
  | .ok d => d.value
  | .error message => .error message

@[simp] theorem toValue_settle (v : Value) (h : v.Settled) : toValue (settle v h) = v := by
  unfold settle
  split
  · next message hm =>
    cases v <;> simp [message?] at hm
    rw [hm, toValue]
  · rfl

/-- Null. -/
def null : Datum := ⟨.null, trivial⟩

theorem cleanAll_map (ds : List Datum) : Value.CleanAll (ds.map Datum.value) := by
  rw [Value.cleanAll_iff]
  intro v hv
  obtain ⟨d, -, rfl⟩ := List.mem_map.mp hv
  exact d.clean

/-- An array of data. -/
def array (elements : List Datum) : Datum :=
  ⟨.array (elements.map Datum.value), cleanAll_map elements⟩

/-- An entry of a hash, as values. -/
def ofEntry (e : HashKey × Datum × Datum) : HashKey × Value × Value :=
  (e.1, e.2.1.value, e.2.2.value)

theorem cleanEntries_map (entries : List (HashKey × Datum × Datum)) :
    Value.CleanEntries (entries.map ofEntry) := by
  rw [Value.cleanEntries_iff]
  intro e he
  obtain ⟨d, -, rfl⟩ := List.mem_map.mp he
  exact ⟨d.2.1.clean, d.2.2.clean⟩

/-- A hash of data. -/
def hash (entries : List (HashKey × Datum × Datum)) : Datum :=
  ⟨.hash (entries.map ofEntry), cleanEntries_map entries⟩

/-- An operator before its operand. -/
def unary (d : Datum) (operator : String) : Except String Datum :=
  settle (Value.unary operator d.value) (Value.settled_unary operator d.value)

/-- An operator between its operands. -/
def binary (a : Datum) (operator : String) (b : Datum) : Except String Datum :=
  settle (Value.binary operator a.value b.value) (Value.settled_binary operator a.value b.value)

/-- A datum in brackets after a datum. -/
def index (target key : Datum) : Except String Datum :=
  settle (Value.index target.value key.value) (Value.settled_index target.clean key.value)

/-- What a standard native function makes of data. -/
def call (f : Native) (arguments : List Datum) : Except String Datum :=
  settle (Library.standard.call f (arguments.map Datum.value)).value
    (Library.settled_call f (cleanAll_map arguments))

end Datum

end Monkey
