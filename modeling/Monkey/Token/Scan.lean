import Monkey.Token

/-!
# Scanning text into tokens

`Lexeme.read` takes the longest token off the front of a text that starts with
a character that is not blank. `Token.scan` repeats it, skipping blanks, and
ends with an end token. The loop ends because a lexeme never leaves more text
than it was given after its first character (`Lexeme.length_rest_read_le`).

Letters and digits are the ASCII ones, with `_` among the letters. A number is
digits, with a point and more digits if a digit follows the point. A string
runs to the next quote and knows no escapes. A string that is never closed is
one illegal token that reaches to the end of the text, and the end token is
placed as if the missing quote had been there.
-/

namespace Monkey

/-- Characters that separate tokens. -/
def isBlank (c : Char) : Bool :=
  c == ' ' || c == '\t' || c == '\n' || c == '\r'

/-- Characters that make up identifiers and keywords. -/
def isLetter (c : Char) : Bool :=
  c.isAlpha || c == '_'

/-- A token without its place, read off the front of a text. -/
structure Lexeme where
  kind : Token.Kind
  /-- The token's literal. -/
  literal : List Char
  /-- The text that the place moves past. -/
  extent : List Char
  /-- The text after the lexeme. -/
  rest : List Char

namespace Lexeme

/-- A lexeme that is written as its literal. -/
def plain (kind : Token.Kind) (literal rest : List Char) : Lexeme :=
  ⟨kind, literal, literal, rest⟩

/-- A lexeme of one character, or of that character and an equals sign. -/
def withEquals (one two : Token.Kind) (c : Char) : List Char → Lexeme
  | '=' :: rest => plain two [c, '='] rest
  | rest => plain one [c] rest

/-- A string, after its opening quote. -/
def quoted (cs : List Char) : Lexeme :=
  let body := cs.takeWhile (· != '"')
  match cs.dropWhile (· != '"') with
  | _ :: rest => ⟨.string, body, '"' :: (body ++ ['"']), rest⟩
  | [] => ⟨.illegal, '"' :: body, '"' :: (body ++ ['"']), []⟩

/-- An identifier or a keyword. -/
def word (cs : List Char) : Lexeme :=
  let letters := cs.takeWhile isLetter
  plain (Token.Kind.ofWord (String.ofList letters)) letters (cs.dropWhile isLetter)

/-- A whole number, or a number with a fraction when a digit follows the point. -/
def number (cs : List Char) : Lexeme :=
  let whole := cs.takeWhile Char.isDigit
  match cs.dropWhile Char.isDigit with
  | '.' :: d :: rest =>
    if d.isDigit then
      plain .float (whole ++ '.' :: (d :: rest).takeWhile Char.isDigit)
        ((d :: rest).dropWhile Char.isDigit)
    else
      plain .int whole ('.' :: d :: rest)
  | rest => plain .int whole rest

/-- Kind of a character that is a token by itself. -/
def symbol? (c : Char) : Option Token.Kind :=
  match c with
  | '+' => some .plus
  | '-' => some .minus
  | '*' => some .asterisk
  | '/' => some .slash
  | '<' => some .lt
  | '>' => some .gt
  | ';' => some .semicolon
  | ':' => some .colon
  | ',' => some .comma
  | '{' => some .lbrace
  | '}' => some .rbrace
  | '(' => some .lparen
  | ')' => some .rparen
  | '[' => some .lbracket
  | ']' => some .rbracket
  | _ => none

/-- The longest token at the front of `c :: cs`, where `c` is not blank. -/
def read (c : Char) (cs : List Char) : Lexeme :=
  if c = '=' then withEquals .assign .eq c cs
  else if c = '!' then withEquals .bang .notEq c cs
  else if c = '"' then quoted cs
  else if isLetter c then word (c :: cs)
  else if c.isDigit then number (c :: cs)
  else plain ((symbol? c).getD .illegal) [c] cs

theorem length_dropWhile_le (p : Char → Bool) (cs : List Char) :
    (cs.dropWhile p).length ≤ cs.length :=
  (List.dropWhile_sublist p).length_le

theorem length_rest_withEquals_le (one two : Token.Kind) (c : Char) (cs : List Char) :
    (withEquals one two c cs).rest.length ≤ cs.length := by
  unfold withEquals
  split <;> simp [plain]

theorem length_rest_quoted_le (cs : List Char) : (quoted cs).rest.length ≤ cs.length := by
  have h := length_dropWhile_le (· != '"') cs
  unfold quoted
  split
  · next heq =>
    rw [heq] at h
    simp at h
    simp
    omega
  · simp

/-- A word takes at least its first letter. -/
theorem length_rest_word_le {c : Char} (hc : isLetter c = true) (cs : List Char) :
    (word (c :: cs)).rest.length ≤ cs.length := by
  simpa [word, plain, hc] using length_dropWhile_le isLetter cs

/-- A number takes at least its first digit. -/
theorem length_rest_number_le {c : Char} (hc : c.isDigit = true) (cs : List Char) :
    (number (c :: cs)).rest.length ≤ cs.length := by
  have h := length_dropWhile_le Char.isDigit cs
  have hdrop : (c :: cs).dropWhile Char.isDigit = cs.dropWhile Char.isDigit := by
    simp [hc]
  unfold number
  rw [hdrop]
  split
  · next d rest heq =>
    rw [heq] at h
    split
    · have hd := length_dropWhile_le Char.isDigit (d :: rest)
      simp [plain] at h hd ⊢
      omega
    · simpa [plain] using h
  · simpa [plain] using h

/-- A lexeme leaves no more text than followed its first character. -/
theorem length_rest_read_le (c : Char) (cs : List Char) :
    (read c cs).rest.length ≤ cs.length := by
  unfold read
  split
  · exact length_rest_withEquals_le _ _ _ _
  split
  · exact length_rest_withEquals_le _ _ _ _
  split
  · exact length_rest_quoted_le _
  split
  · next hc => exact length_rest_word_le hc cs
  split
  · next hc => exact length_rest_number_le hc cs
  · exact Nat.le_refl _

end Lexeme

/-- The tokens of a text: those before its end, and the end token. -/
structure TokenStream where
  tokens : List Token
  eof : Token
deriving DecidableEq, Repr, Inhabited

/-- All tokens, with the end token last. -/
def TokenStream.toList (s : TokenStream) : List Token :=
  s.tokens ++ [s.eof]

namespace Token

/-- The tokens of the text `cs`, whose first character is at `l`. -/
def scanFrom (l : Location) (cs : List Char) : TokenStream :=
  match cs with
  | [] => ⟨[], ⟨.eof, "", l⟩⟩
  | c :: cs =>
    if isBlank c then
      scanFrom (l.past c) cs
    else
      let lexeme := Lexeme.read c cs
      let later := scanFrom (l.pastAll lexeme.extent) lexeme.rest
      ⟨⟨lexeme.kind, String.ofList lexeme.literal, l⟩ :: later.tokens, later.eof⟩
termination_by cs.length
decreasing_by
  · simp
  · exact Nat.lt_succ_of_le (Lexeme.length_rest_read_le c cs)

/-- The tokens of a text. -/
def scan (source : String) : TokenStream :=
  scanFrom Location.start source.toList

end Token

end Monkey
