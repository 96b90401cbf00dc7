/-!
# Text from bytes

Two ways to read UTF-8. `decode?` takes well-formed bytes only. `decodeLossy`
takes any bytes and puts one replacement character for each part that is not
well formed, where a part is as long as it can be the start of a character.
`pieces` ends because a lead byte never leaves more bytes than followed it
(`length_extend_le`).
-/

namespace Monkey.Utf8

/-- The text of well-formed bytes. -/
def decode? (bytes : ByteArray) : Option String :=
  String.fromUTF8? bytes

/-- What a lead byte says about the rest of its character. -/
structure Lead where
  /-- The bits that the lead byte gives. -/
  bits : Nat
  /-- The least second byte. -/
  low : Nat
  /-- The greatest second byte. -/
  high : Nat
  /-- How many bytes follow. -/
  following : Nat

/-- A byte that starts a character of several bytes. The bounds on the second byte
leave out surrogates, long forms, and numbers above the last character. -/
def lead? (byte : Nat) : Option Lead :=
  if 0xc2 ≤ byte ∧ byte ≤ 0xdf then some ⟨byte - 0xc0, 0x80, 0xbf, 1⟩
  else if byte = 0xe0 then some ⟨byte - 0xe0, 0xa0, 0xbf, 2⟩
  else if byte = 0xed then some ⟨byte - 0xe0, 0x80, 0x9f, 2⟩
  else if 0xe1 ≤ byte ∧ byte ≤ 0xef then some ⟨byte - 0xe0, 0x80, 0xbf, 2⟩
  else if byte = 0xf0 then some ⟨byte - 0xf0, 0x90, 0xbf, 3⟩
  else if byte = 0xf4 then some ⟨byte - 0xf0, 0x80, 0x8f, 3⟩
  else if 0xf1 ≤ byte ∧ byte ≤ 0xf3 then some ⟨byte - 0xf0, 0x80, 0xbf, 3⟩
  else none

/-- Reads the following bytes of a character, the first of them between `low` and
`high`. Gives the number of the character, if it is complete, and the bytes left. -/
def extend (low high bits : Nat) : Nat → List UInt8 → Option Nat × List UInt8
  | 0, bytes => (some bits, bytes)
  | _ + 1, [] => (none, [])
  | n + 1, byte :: bytes =>
    if low ≤ byte.toNat ∧ byte.toNat ≤ high then
      extend 0x80 0xbf (64 * bits + (byte.toNat - 0x80)) n bytes
    else
      (none, byte :: bytes)

theorem length_extend_le (low high bits n : Nat) (bytes : List UInt8) :
    (extend low high bits n bytes).2.length ≤ bytes.length := by
  induction n generalizing low high bits bytes with
  | zero => simp [extend]
  | succ n ih =>
    cases bytes with
    | nil => simp [extend]
    | cons byte bytes =>
      unfold extend
      split
      · exact Nat.le_succ_of_le (ih _ _ _ _)
      · exact Nat.le_refl _

/-- The characters of some bytes, with nothing for each part that is not well formed. -/
def pieces : List UInt8 → List (Option Char)
  | [] => []
  | byte :: bytes =>
    if byte.toNat < 0x80 then
      some (Char.ofNat byte.toNat) :: pieces bytes
    else
      match lead? byte.toNat with
      | none => none :: pieces bytes
      | some lead =>
        let read := extend lead.low lead.high lead.bits lead.following bytes
        read.1.map Char.ofNat :: pieces read.2
termination_by bytes => bytes.length
decreasing_by
  · simp
  · simp
  · exact Nat.lt_succ_of_le (length_extend_le _ _ _ _ bytes)

/-- The text of any bytes. -/
def decodeLossy (bytes : List UInt8) : String :=
  String.ofList ((pieces bytes).map (·.getD '\uFFFD'))

end Monkey.Utf8
