import Monkey.Run.Batch
import Monkey.Run.Session

/-!
# Lines as bytes

The input of a session is bytes. A character has one form in bytes, and reading with
replacement characters takes that form back to the character
(`Utf8.pieces_utf8EncodeChar_append`), so a text survives the way into a session
(`Utf8.decodeLossy_encode`). The byte of a newline is in the form of no other character. So lines
that are entered one after the other, each with its newline, are the lines that a session runs
(`Session.runInput_entered`).
-/

namespace Monkey

namespace Utf8

/-- The bytes of a text. -/
def encode (text : String) : List UInt8 := text.toUTF8.data.toList

theorem encode_eq_flatMap (text : String) :
    encode text = text.toList.flatMap String.utf8EncodeChar := by
  have hbytes : text.toUTF8 = text.toList.utf8Encode := by
    rw [String.toUTF8_eq_toByteArray, ← String.toByteArray_ofList, String.ofList_toList]
  rw [encode, hbytes, List.utf8Encode, List.data_toByteArray]

theorem encode_append (s t : String) : encode (s ++ t) = encode s ++ encode t := by
  simp only [encode_eq_flatMap, String.toList_append, List.flatMap_append]

theorem decode?_toUTF8 (text : String) : decode? text.toUTF8 = some text :=
  dif_pos text.isValidUTF8

/-! ## Reading a character -/

/-- The lead byte of a character of two bytes. -/
theorem lead?_of_two (byte : Nat) (hlow : 0xc2 ≤ byte) (hhigh : byte ≤ 0xdf) :
    lead? byte = some ⟨byte - 0xc0, 0x80, 0xbf, 1⟩ :=
  if_pos ⟨hlow, hhigh⟩

/-- The lead byte of a character of three bytes. Its second byte leaves out long forms and
surrogates. -/
theorem lead?_of_three (byte : Nat) (hlow : 0xe0 ≤ byte) (hhigh : byte ≤ 0xef) :
    lead? byte = some ⟨byte - 0xe0, if byte = 0xe0 then 0xa0 else 0x80,
      if byte = 0xed then 0x9f else 0xbf, 2⟩ := by
  unfold lead?
  grind

/-- The lead byte of a character of four bytes. Its second byte leaves out long forms and numbers
above the last character. -/
theorem lead?_of_four (byte : Nat) (hlow : 0xf0 ≤ byte) (hhigh : byte ≤ 0xf4) :
    lead? byte = some ⟨byte - 0xf0, if byte = 0xf0 then 0x90 else 0x80,
      if byte = 0xf4 then 0x8f else 0xbf, 3⟩ := by
  unfold lead?
  grind

/-- A byte that may follow gives six more bits. -/
theorem extend_cons {low high bits n k : Nat} {bytes : List UInt8} {read : Option Nat × List UInt8}
    (hlow : low ≤ k % 64 + 0x80) (hhigh : k % 64 + 0x80 ≤ high)
    (hread : extend 0x80 0xbf (64 * bits + k % 64) n bytes = read) :
    extend low high bits (n + 1) (UInt8.ofNat (k % 64 + 0x80) :: bytes) = read := by
  have hbyte : (UInt8.ofNat (k % 64 + 0x80)).toNat = k % 64 + 0x80 := by
    rw [UInt8.toNat_ofNat']
    omega
  rw [extend, hbyte, if_pos ⟨hlow, hhigh⟩, Nat.add_sub_cancel, hread]

theorem extend_zero {low high bits number : Nat} {bytes : List UInt8} (hnumber : bits = number) :
    extend low high bits 0 bytes = (some number, bytes) := by
  rw [extend, hnumber]

theorem pieces_cons_of_lead {byte : Nat} {bytes rest : List UInt8} {lead : Lead} {number : Nat}
    (hbyte : byte < 256) (hlead : lead? byte = some lead)
    (hread : extend lead.low lead.high lead.bits lead.following bytes = (some number, rest)) :
    pieces (UInt8.ofNat byte :: bytes) = some (Char.ofNat number) :: pieces rest := by
  have hnat : (UInt8.ofNat byte).toNat = byte := by
    rw [UInt8.toNat_ofNat', Nat.mod_eq_of_lt hbyte]
  have hnone : ¬ byte < 0x80 := by
    intro hsmall
    have : lead? byte = none := by
      unfold lead?
      grind
    simp [this] at hlead
  rw [pieces, hnat, if_neg hnone, hlead]
  dsimp only
  rw [hread]
  rfl

/-- A character is read back from its bytes, whatever follows. -/
theorem pieces_utf8EncodeChar_append (c : Char) (rest : List UInt8) :
    pieces (String.utf8EncodeChar c ++ rest) = some c :: pieces rest := by
  have hvalid : c.toNat < 0xd800 ∨ 0xdfff < c.toNat ∧ c.toNat < 0x110000 := c.valid
  have hback : Char.ofNat c.toNat = c := Char.ofNat_toNat c
  unfold String.utf8EncodeChar
  rw [show c.val.toNat = c.toNat from rfl]
  generalize c.toNat = v at hvalid hback
  subst hback
  dsimp only
  -- the four cases are the numbers of bytes
  by_cases hone : v ≤ 0x7f
  · have hbyte : (UInt8.ofNat v).toNat = v := by
      rw [UInt8.toNat_ofNat']
      omega
    rw [if_pos hone, List.singleton_append, pieces, hbyte, if_pos (by omega)]
  rw [if_neg hone]
  by_cases htwo : v ≤ 0x7ff
  · rw [if_pos htwo]
    have hlead := lead?_of_two (v / 64 % 32 + 192) (by omega) (by omega)
    refine pieces_cons_of_lead (by omega) hlead ?_
    refine extend_cons (by dsimp only; omega) (by dsimp only; omega) (extend_zero ?_)
    dsimp only
    omega
  rw [if_neg htwo]
  by_cases hthree : v ≤ 0xffff
  · rw [if_pos hthree]
    have hlead := lead?_of_three (v / 4096 % 16 + 224) (by omega) (by omega)
    refine pieces_cons_of_lead (by omega) hlead ?_
    refine extend_cons (by dsimp only; split <;> omega) (by dsimp only; split <;> omega) ?_
    refine extend_cons (by omega) (by omega) (extend_zero ?_)
    dsimp only
    omega
  · rw [if_neg hthree]
    have hlead := lead?_of_four (v / 262144 % 8 + 240) (by omega) (by omega)
    refine pieces_cons_of_lead (by omega) hlead ?_
    refine extend_cons (by dsimp only; split <;> omega) (by dsimp only; split <;> omega) ?_
    refine extend_cons (by omega) (by omega) (extend_cons (by omega) (by omega) (extend_zero ?_))
    dsimp only
    omega

theorem pieces_flatMap (cs : List Char) :
    pieces (cs.flatMap String.utf8EncodeChar) = cs.map some := by
  induction cs with
  | nil => rw [List.flatMap_nil, pieces, List.map_nil]
  | cons c cs ih =>
    rw [List.flatMap_cons, pieces_utf8EncodeChar_append, ih, List.map_cons]

/-- A text needs no replacement characters. -/
theorem decodeLossy_encode (text : String) : decodeLossy (encode text) = text := by
  rw [decodeLossy, encode_eq_flatMap, pieces_flatMap, List.map_map]
  exact (congrArg String.ofList (List.map_id _)).trans String.ofList_toList

/-! ## Newlines -/

/-- Only a newline has the byte of a newline. -/
theorem newline_notMem_utf8EncodeChar {c : Char} (h : c ≠ '\n') :
    10 ∉ String.utf8EncodeChar c := by
  have hbyte (k : Nat) : 10 = UInt8.ofNat k ↔ k % 256 = 10 := by
    rw [← UInt8.toNat_inj, UInt8.toNat_ofNat']
    exact eq_comm
  have hc : c.val.toNat ≠ 10 := fun hc => h (Char.ext (UInt32.toNat_inj.mp hc))
  intro hmem
  unfold String.utf8EncodeChar at hmem
  dsimp only at hmem
  -- a character of several bytes has bytes from `0x80` on only
  repeat' split at hmem
  all_goals
    simp only [List.mem_cons, List.not_mem_nil, or_false, hbyte] at hmem
    omega

theorem newline_notMem_encode {text : String} (h : '\n' ∉ text.toList) : 10 ∉ encode text := by
  rw [encode_eq_flatMap, List.mem_flatMap]
  rintro ⟨c, hc, hbyte⟩
  exact newline_notMem_utf8EncodeChar (fun heq => h (heq ▸ hc)) hbyte

end Utf8

theorem byteLines_append_newline {line : List UInt8} (h : 10 ∉ line) (rest : List UInt8) :
    byteLines (line ++ 10 :: rest) = (line ++ [10]) :: byteLines rest := by
  induction line with
  | nil => rfl
  | cons byte line ih =>
    obtain ⟨hbyte, hline⟩ := not_or.mp (mt List.mem_cons.mpr h)
    rw [List.cons_append, byteLines, if_neg (Ne.symm hbyte), ih hline]
    rfl

namespace Session

/-- The bytes of lines that are entered one after the other, each with its newline. -/
def entered (lines : List String) : List UInt8 :=
  lines.flatMap fun line => Utf8.encode (line ++ "\n")

theorem byteLines_entered {lines : List String} (h : ∀ line ∈ lines, '\n' ∉ line.toList) :
    byteLines (entered lines) = lines.map fun line => Utf8.encode (line ++ "\n") := by
  induction lines with
  | nil => rfl
  | cons line lines ih =>
    have hnewline : Utf8.encode "\n" = [10] := by decide
    have hline := Utf8.newline_notMem_encode (h line List.mem_cons_self)
    have hlines := ih fun other hother => h other (List.mem_cons_of_mem line hother)
    rw [List.map_cons, ← hlines, entered, List.flatMap_cons, Utf8.encode_append, hnewline,
      List.append_assoc]
    exact byteLines_append_newline hline _

/-- A session runs the lines that are entered. -/
theorem runInput_entered (stamp : String) (e : Evaluator) {lines : List String}
    (h : ∀ line ∈ lines, '\n' ∉ line.toList) :
    runInput stamp e (entered lines) = (start e).runLines stamp (lines.map (· ++ "\n")) := by
  have hlines : (byteLines (entered lines)).map Utf8.decodeLossy = lines.map (· ++ "\n") := by
    rw [byteLines_entered h, List.map_map]
    exact List.map_congr_left fun line _ => Utf8.decodeLossy_encode (line ++ "\n")
  rw [runInput, hlines]

end Session

end Monkey
