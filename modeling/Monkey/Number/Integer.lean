import Monkey.Number.Digits

/-!
# Integers of 64 bits

Integers of the language are signed and have 64 bits. An operation is carried
out on the mathematical integers and then narrowed by `Integer.narrow?`, which
refuses what does not fit, so nothing wraps around. Narrowing keeps the number
(`Integer.toInt_of_narrow?`) and takes every 64-bit number
(`Integer.narrow?_toInt`).
-/

namespace Monkey.Integer

/-- The 64-bit integer `z`, if `z` lies between `-2^63` and `2^63 - 1`. -/
def narrow? (z : Int) : Option Int64 :=
  if -0x8000000000000000 ≤ z ∧ z < 0x8000000000000000 then some (Int64.ofInt z) else none

/-- The integer that a row of digits denotes, if it has 64 bits. -/
def ofDigits? (digits : String) : Option Int64 :=
  narrow? (digitsValue digits.toList)

theorem toInt_of_narrow? {z : Int} {n : Int64} (h : narrow? z = some n) : n.toInt = z := by
  unfold narrow? at h
  split at h
  · next hz =>
    obtain rfl := Option.some.inj h
    exact Int64.toInt_ofInt_of_le hz.1 hz.2
  · simp at h

theorem narrow?_toInt (n : Int64) : narrow? n.toInt = some n := by
  rw [narrow?, if_pos ⟨n.le_toInt, n.toInt_lt⟩, Int64.ofInt_toInt]

/-- Narrowing fails exactly outside the 64-bit range. -/
theorem narrow?_eq_none_iff {z : Int} :
    narrow? z = none ↔ z < -0x8000000000000000 ∨ 0x8000000000000000 ≤ z := by
  unfold narrow?
  split
  · next hz => simp; omega
  · next hz => simp only [true_iff]; omega

/-- A row of digits denotes an integer exactly if it denotes at most `2^63 - 1`. -/
theorem ofDigits?_eq_some_iff {digits : String} {n : Int64} :
    ofDigits? digits = some n ↔
      digitsValue digits.toList ≤ 0x7fffffffffffffff ∧
        n = Int64.ofInt (digitsValue digits.toList) := by
  unfold ofDigits? narrow?
  split
  · next hz =>
    rw [Option.some.injEq]
    exact ⟨fun h => ⟨by omega, h.symm⟩, fun h => h.2.symm⟩
  · next hz => simp only [reduceCtorEq, false_iff]; omega

end Monkey.Integer
