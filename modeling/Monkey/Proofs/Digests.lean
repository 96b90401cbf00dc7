import Mathlib.Logic.Function.Basic
import Monkey.Proofs.Hashes

/-!
# Digests that differ

Absorbing a byte can be undone: the multiplier is odd, so it has an inverse modulo `2^64`
(`Digest.prime_mul_inverse`), and an exclusive or is its own inverse (`Digest.restore`). So
absorbing some bytes permutes the states (`Digest.absorbAll_bijective`): two states that differ
stay apart whatever comes after them. Two different bytes take a state to different states
(`Digest.absorb_right_inj`), and from there on the same bytes never bring them together.

Strings are filed by the digest of their bytes. Digests of different strings can be the same, but
not if the strings differ in one byte only (`one_byte_changes_key`).
-/

namespace Monkey

namespace Digest

/-- The inverse of the multiplier modulo `2^64`. -/
def inverse : UInt64 := 0xce965057aff6957b

theorem prime_mul_inverse : prime * inverse = 1 := by decide

/-- The state before a byte was absorbed. -/
def restore (state : UInt64) (byte : UInt8) : UInt64 :=
  (state * inverse) ^^^ byte.toUInt64

theorem absorb_mul_inverse (state : UInt64) (byte : UInt8) :
    absorb state byte * inverse = state ^^^ byte.toUInt64 := by
  rw [absorb, UInt64.mul_assoc, prime_mul_inverse, UInt64.mul_one]

theorem restore_absorb (state : UInt64) (byte : UInt8) :
    restore (absorb state byte) byte = state := by
  rw [restore, absorb_mul_inverse, UInt64.xor_assoc, UInt64.xor_self, UInt64.xor_zero]

theorem absorb_restore (state : UInt64) (byte : UInt8) :
    absorb (restore state byte) byte = state := by
  rw [absorb, restore, UInt64.xor_assoc, UInt64.xor_self, UInt64.xor_zero, UInt64.mul_assoc,
    UInt64.mul_comm inverse, prime_mul_inverse, UInt64.mul_one]

theorem absorb_bijective (byte : UInt8) : Function.Bijective (absorb · byte) :=
  Function.bijective_iff_has_inverse.mpr
    ⟨(restore · byte), (restore_absorb · byte), (absorb_restore · byte)⟩

/-- Different bytes take a state to different states. -/
theorem absorb_right_inj {state : UInt64} {x y : UInt8} :
    absorb state x = absorb state y ↔ x = y := by
  refine ⟨fun h => ?_, fun h => h ▸ rfl⟩
  have hxor : state ^^^ x.toUInt64 = state ^^^ y.toUInt64 := by
    rw [← absorb_mul_inverse, ← absorb_mul_inverse, h]
  exact UInt8.toUInt64_inj.mp ((UInt64.xor_right_inj state).mp hxor)

/-- Whatever bytes come next, they permute the states. -/
theorem absorbAll_bijective (bytes : List UInt8) : Function.Bijective (absorbAll · bytes) := by
  induction bytes with
  | nil => exact Function.bijective_id
  | cons byte bytes ih => exact ih.comp (absorb_bijective byte)

/-- The digest changes with any one byte. -/
theorem ofBytes_inj_byte {front back : List UInt8} {x y : UInt8} :
    ofBytes (front ++ [x] ++ back) = ofBytes (front ++ [y] ++ back) ↔ x = y := by
  refine ⟨fun h => ?_, fun h => h ▸ rfl⟩
  simp only [ofBytes, absorbAll_append, absorbAll_cons, absorbAll_nil] at h
  exact absorb_right_inj.mp ((absorbAll_bijective back).injective h)

end Digest

/-- Filing an entry under one key changes nothing about another. -/
theorem Value.index_insert_of_ne {filed : HashKey} {q : Value} (h : q.hashKey? ≠ some filed)
    (entry : Value × Value) (table : List (HashKey × Value × Value)) :
    index (.hash (HashTable.insert filed entry table)) q = index (.hash table) q := by
  show filedUnder _ q = filedUnder _ q
  unfold filedUnder
  split
  · next key hkey =>
    have hne : filed ≠ key := fun heq => h (heq ▸ hkey)
    rw [HashTable.find?_insert, if_neg hne]
  · rfl

/-- **One byte makes the key a different one.** Whatever bytes are absorbed, different states
before them lead to different states after them, and every state is reached. So the digests of
two rows of bytes that differ in one byte are different. Two strings whose encodings differ in one
byte have different hash keys, and what is filed in a hash under one of them does not replace what
is filed under the other. -/
theorem one_byte_changes_key :
    (∀ bytes, Function.Bijective (Digest.absorbAll · bytes)) ∧
      (∀ (front back : List UInt8) (x y : UInt8), x ≠ y →
        Digest.ofBytes (front ++ [x] ++ back) ≠ Digest.ofBytes (front ++ [y] ++ back)) ∧
      ∀ (s t : String) (front back : List UInt8) (x y : UInt8), x ≠ y →
        s.toUTF8.toList = front ++ [x] ++ back → t.toUTF8.toList = front ++ [y] ++ back →
        (Value.string s).hashKey? ≠ (Value.string t).hashKey? ∧
          ∀ filed entry table, (Value.string t).hashKey? = some filed →
            Value.index (.hash (HashTable.insert filed entry table)) (.string s) =
              Value.index (.hash table) (.string s) := by
  refine ⟨Digest.absorbAll_bijective, fun front back x y hne h => hne (Digest.ofBytes_inj_byte.mp h),
    fun s t front back x y hne hs ht => ?_⟩
  have hkeys : (Value.string s).hashKey? ≠ (Value.string t).hashKey? := by
    rw [ne_eq, Value.hashKey?_string_iff, Digest.ofString, Digest.ofString, hs, ht]
    exact fun h => hne (Digest.ofBytes_inj_byte.mp h)
  exact ⟨hkeys, fun filed entry table hfiled =>
    Value.index_insert_of_ne (fun hsame => hkeys (hsame.trans hfiled.symm)) entry table⟩

/-- The strings `é` and `è` differ in the second of their two bytes. A hash can hold both. -/
theorem one_byte_changes_key_accent :
    "é".toUTF8.toList = [0xc3] ++ [0xa9] ++ [] ∧ "è".toUTF8.toList = [0xc3] ++ [0xa8] ++ [] ∧
      (Value.string "é").hashKey? ≠ (Value.string "è").hashKey? ∧
      let filed : String → HashKey := fun s => ⟨.string, Digest.ofString s⟩
      let table := HashTable.insert (filed "é") (Value.string "é", Value.integer 1) []
      Value.index (.hash (HashTable.insert (filed "è") (.string "è", .integer 2) table))
        (.string "é") = .integer 1 := by
  have hacute : "é".toUTF8.toList = [0xc3] ++ [0xa9] ++ [] := by decide +kernel
  have hgrave : "è".toUTF8.toList = [0xc3] ++ [0xa8] ++ [] := by decide +kernel
  obtain ⟨hkeys, hfiled⟩ :=
    one_byte_changes_key.2.2 "é" "è" [0xc3] [] 0xa9 0xa8 (by decide) hacute hgrave
  refine ⟨hacute, hgrave, hkeys, (hfiled _ _ _ rfl).trans ?_⟩
  simp [Value.index, Value.filedUnder, Value.hashKey?, HashTable.insert, HashTable.find?]

end Monkey
