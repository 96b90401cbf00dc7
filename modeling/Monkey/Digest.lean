/-!
# A digest of bytes

The 64-bit FNV-1a digest: start from a fixed state, and for each byte take the
exclusive or with it and multiply by a prime. Strings are filed in hashes by
the digest of their UTF-8 bytes.
-/

namespace Monkey.Digest

/-- The state before any byte. -/
def basis : UInt64 := 0xcbf29ce484222325

/-- The multiplier. -/
def prime : UInt64 := 0x100000001b3

/-- The state after one more byte. -/
def absorb (state : UInt64) (byte : UInt8) : UInt64 :=
  (state ^^^ byte.toUInt64) * prime

/-- The state after some more bytes. -/
def absorbAll (state : UInt64) (bytes : List UInt8) : UInt64 :=
  bytes.foldl absorb state

/-- The digest of some bytes. -/
def ofBytes (bytes : List UInt8) : UInt64 :=
  absorbAll basis bytes

/-- The digest of a text. -/
def ofString (text : String) : UInt64 :=
  ofBytes text.toUTF8.toList

@[simp] theorem absorbAll_nil (state : UInt64) : absorbAll state [] = state := rfl

@[simp] theorem absorbAll_cons (state : UInt64) (byte : UInt8) (bytes : List UInt8) :
    absorbAll state (byte :: bytes) = absorbAll (absorb state byte) bytes := rfl

theorem absorbAll_append (state : UInt64) (front back : List UInt8) :
    absorbAll state (front ++ back) = absorbAll (absorbAll state front) back := by
  simp [absorbAll]

end Monkey.Digest
