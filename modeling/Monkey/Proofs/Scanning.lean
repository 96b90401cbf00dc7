import Monkey.Token.Scan

/-!
# What scanning gives

Every token that is scanned has a literal that its kind allows
(`Token.spells_of_mem_scan`), and only the end token has the kind
`Token.Kind.eof` (`Token.kind_eof_scan`).

The kinds and literals of the tokens do not depend on where a text stands. They
are the `words` of the text, and they can be read from the left: a blank gives
none, and a symbol, a word, a number or a string gives one if what comes after it
does not go on with it (`Delimited`).
-/

namespace Monkey

open Token (Kind)

namespace Token

/-- The text of a kind whose tokens are all written in the same way, and no text for
the other kinds. -/
def Kind.text : Kind → List Char
  | .assign => ['=']
  | .plus => ['+']
  | .minus => ['-']
  | .bang => ['!']
  | .asterisk => ['*']
  | .slash => ['/']
  | .lt => ['<']
  | .gt => ['>']
  | .eq => ['=', '=']
  | .notEq => ['!', '=']
  | .comma => [',']
  | .semicolon => [';']
  | .colon => [':']
  | .lparen => ['(']
  | .rparen => [')']
  | .lbrace => ['\x7b']
  | .rbrace => ['\x7d']
  | .lbracket => ['[']
  | .rbracket => [']']
  | .kwFn => ['f', 'n']
  | .kwLet => ['l', 'e', 't']
  | .kwTrue => ['t', 'r', 'u', 'e']
  | .kwFalse => ['f', 'a', 'l', 's', 'e']
  | .kwIf => ['i', 'f']
  | .kwElse => ['e', 'l', 's', 'e']
  | .kwReturn => ['r', 'e', 't', 'u', 'r', 'n']
  | .illegal | .eof | .ident | .int | .float | .string => []

/-- Some letters, and not a keyword. -/
def IsName (w : List Char) : Prop :=
  w ≠ [] ∧ (∀ c ∈ w, isLetter c = true) ∧ Kind.ofWord (String.ofList w) = .ident

/-- One digit or more. -/
def IsDigits (w : List Char) : Prop :=
  w ≠ [] ∧ ∀ c ∈ w, c.isDigit = true

/-- Digits, a point and digits. -/
def IsDecimal (w : List Char) : Prop :=
  ∃ whole fraction, w = whole ++ '.' :: fraction ∧ IsDigits whole ∧ IsDigits fraction

/-- The literals that a token of a kind can have. A string has no quotes around it, and
nothing can be written that would be the end token. -/
def Kind.Spells : Kind → List Char → Prop
  | .illegal, _ => True
  | .eof, _ => False
  | .ident, w => IsName w
  | .int, w => IsDigits w
  | .float, w => IsDecimal w
  | .string, w => '"' ∉ w
  | kind, w => w = kind.text

end Token

namespace Lexeme

theorem spells_withEquals (one two : Kind) (c : Char) (cs : List Char)
    (h₁ : one.Spells [c]) (h₂ : two.Spells [c, '=']) :
    (withEquals one two c cs).kind.Spells (withEquals one two c cs).literal := by
  unfold withEquals
  split
  · exact h₂
  · exact h₁

theorem forall_mem_takeWhile (p : Char → Bool) (cs : List Char) :
    ∀ c ∈ cs.takeWhile p, p c = true :=
  List.all_eq_true.mp List.all_takeWhile

theorem not_mem_takeWhile (c : Char) (cs : List Char) : c ∉ cs.takeWhile (· != c) := by
  intro h
  simpa using forall_mem_takeWhile (· != c) cs c h

theorem spells_quoted (cs : List Char) : (quoted cs).kind.Spells (quoted cs).literal := by
  unfold quoted
  split
  · exact not_mem_takeWhile '"' cs
  · trivial

/-- A word is a keyword, and then it is that keyword's text, or it is a name. -/
theorem spells_ofWord {w : List Char} (hne : w ≠ []) (hw : ∀ c ∈ w, isLetter c = true) :
    (Kind.ofWord (String.ofList w)).Spells w := by
  by_cases h : Kind.ofWord (String.ofList w) = .ident
  · rw [h]
    exact ⟨hne, hw, h⟩
  · generalize hs : String.ofList w = s at h ⊢
    have hl : w = s.toList := by rw [← hs, String.toList_ofList]
    subst hl
    unfold Kind.ofWord at h ⊢
    split at h <;> first | rfl | exact absurd rfl h

theorem isDigits_takeWhile {c : Char} (hc : c.isDigit = true) (cs : List Char) :
    Token.IsDigits ((c :: cs).takeWhile Char.isDigit) :=
  ⟨by simp [hc], forall_mem_takeWhile _ _⟩

theorem spells_number {c : Char} (hc : c.isDigit = true) (cs : List Char) :
    (number (c :: cs)).kind.Spells (number (c :: cs)).literal := by
  have hwhole := isDigits_takeWhile hc cs
  unfold number
  split
  · split
    · next d rest _ hd => exact ⟨_, _, rfl, hwhole, isDigits_takeWhile hd rest⟩
    · exact hwhole
  · exact hwhole

theorem spells_symbol (c : Char) : ((symbol? c).getD .illegal).Spells [c] := by
  unfold symbol?
  split <;> simp [Kind.Spells, Kind.text]

/-- A lexeme has a literal that its kind allows. -/
theorem spells_read (c : Char) (cs : List Char) : (read c cs).kind.Spells (read c cs).literal := by
  unfold read
  split
  · next h => exact h ▸ spells_withEquals .assign .eq '=' cs rfl rfl
  split
  · next h => exact h ▸ spells_withEquals .bang .notEq '!' cs rfl rfl
  split
  · exact spells_quoted cs
  split
  · next hc => exact spells_ofWord (by simp [hc]) (forall_mem_takeWhile _ _)
  split
  · next hc => exact spells_number hc cs
  · exact spells_symbol c

end Lexeme

namespace Token

/-- Every token before the end token has a literal that its kind allows. -/
theorem spells_of_mem_scanFrom (l : Location) (cs : List Char) :
    ∀ t ∈ (scanFrom l cs).tokens, t.kind.Spells t.literal.toList := by
  fun_induction scanFrom l cs with
  | case1 => simp
  | case2 l c cs _ ih => exact ih
  | case3 l c cs _ lexeme later ih =>
    intro t ht
    rcases List.mem_cons.mp ht with rfl | ht
    · simpa using Lexeme.spells_read c cs
    · exact ih t ht

theorem kind_eof_scanFrom (l : Location) (cs : List Char) : (scanFrom l cs).eof.kind = .eof := by
  fun_induction scanFrom l cs with
  | case1 => rfl
  | case2 l c cs _ ih => exact ih
  | case3 l c cs _ lexeme later ih => exact ih

theorem spells_of_mem_scan {source : String} {t : Token} (ht : t ∈ (scan source).tokens) :
    t.kind.Spells t.literal.toList :=
  spells_of_mem_scanFrom _ _ t ht

theorem kind_eof_scan (source : String) : (scan source).eof.kind = .eof :=
  kind_eof_scanFrom _ _

theorem kind_ne_eof_of_mem_scan {source : String} {t : Token} (ht : t ∈ (scan source).tokens) :
    t.kind ≠ .eof := by
  intro h
  have := spells_of_mem_scan ht
  rwa [h] at this

end Token

/-! ## Words -/

/-- A kind and a literal. -/
abbrev Word := Kind × List Char

/-- Kind and literal of a token. -/
def Token.word (t : Token) : Word := (t.kind, t.literal.toList)

/-- The word of a kind whose tokens are all written in the same way. -/
def Token.Kind.word (kind : Kind) : Word := (kind, kind.text)

/-- Kinds and literals of the tokens of a text. -/
def words (cs : List Char) : List Word :=
  (Token.scanFrom Location.start cs).tokens.map Token.word

/-- Where a text stands does not matter for its words. -/
theorem map_word_scanFrom (l : Location) (cs : List Char) :
    (Token.scanFrom l cs).tokens.map Token.word = words cs := by
  unfold words
  generalize Location.start = l'
  fun_induction Token.scanFrom l cs generalizing l' with
  | case1 => rw [Token.scanFrom]
  | case2 l c cs hc ih =>
    rw [Token.scanFrom, if_pos hc]
    exact ih _
  | case3 l c cs hc lexeme later ih =>
    rw [Token.scanFrom, if_neg hc]
    exact congrArg (_ :: ·) (ih _)

@[simp] theorem words_nil : words [] = [] := by
  rw [words, Token.scanFrom]
  rfl

theorem words_blank {c : Char} (hc : isBlank c = true) (cs : List Char) :
    words (c :: cs) = words cs := by
  rw [words, Token.scanFrom, if_pos hc]
  exact map_word_scanFrom _ _

@[simp] theorem words_space (cs : List Char) : words (' ' :: cs) = words cs :=
  words_blank rfl cs

theorem words_cons {c : Char} (hc : isBlank c = false) (cs : List Char) :
    words (c :: cs) =
      ((Lexeme.read c cs).kind, (Lexeme.read c cs).literal) :: words (Lexeme.read c cs).rest := by
  rw [words, Token.scanFrom, if_neg (by simp [hc])]
  simp [Token.word, map_word_scanFrom]

/-- A symbol is a word whatever comes after it. -/
theorem words_symbol {c : Char} {kind : Kind} (h : Lexeme.symbol? c = some kind)
    (cs : List Char) : words (c :: cs) = kind.word :: words cs := by
  unfold Lexeme.symbol? at h
  split at h <;> cases h <;> rw [words_cons rfl] <;> rfl

theorem words_eq (cs : List Char) : words ('=' :: '=' :: cs) = Kind.eq.word :: words cs := by
  rw [words_cons rfl]
  rfl

theorem words_notEq (cs : List Char) : words ('!' :: '=' :: cs) = Kind.notEq.word :: words cs := by
  rw [words_cons rfl]
  rfl

theorem words_assign (cs : List Char) :
    words ('=' :: ' ' :: cs) = Kind.assign.word :: words cs := by
  rw [words_cons rfl, ← words_space cs]
  rfl

/-- A character stands for itself unless an equals sign comes after it. -/
theorem withEquals_of_ne (one two : Kind) (c : Char) {cs : List Char} (h : cs.head? ≠ some '=') :
    Lexeme.withEquals one two c cs = Lexeme.plain one [c] cs := by
  unfold Lexeme.withEquals
  split
  · exact absurd rfl h
  · rfl

theorem words_bang {cs : List Char} (h : cs.head? ≠ some '=') :
    words ('!' :: cs) = Kind.bang.word :: words cs := by
  have hread : Lexeme.read '!' cs = Lexeme.plain .bang ['!'] cs := withEquals_of_ne _ _ _ h
  rw [words_cons rfl, hread]
  rfl

/-- Whatever comes next does not go on with a word or a number. -/
def Delimited (cs : List Char) : Prop :=
  ∀ c ∈ cs.head?, isLetter c = false ∧ c.isDigit = false ∧ c ≠ '.'

@[simp] theorem delimited_cons (c : Char) (cs : List Char) :
    Delimited (c :: cs) ↔ isLetter c = false ∧ c.isDigit = false ∧ c ≠ '.' := by
  simp [Delimited]

section Delimited

variable {p : Char → Bool} {w cs : List Char}

theorem takeWhile_append_stop (hw : ∀ c ∈ w, p c = true) (hcs : ∀ c ∈ cs.head?, p c = false) :
    (w ++ cs).takeWhile p = w := by
  rw [List.takeWhile_append_of_pos hw]
  cases cs with
  | nil => simp
  | cons c cs => simp [hcs c rfl]

theorem dropWhile_append_stop (hw : ∀ c ∈ w, p c = true) (hcs : ∀ c ∈ cs.head?, p c = false) :
    (w ++ cs).dropWhile p = cs := by
  rw [List.dropWhile_append_of_pos hw]
  cases cs with
  | nil => simp
  | cons c cs => simp [hcs c rfl]

/-- Letters and digits do not start any of the other lexemes. -/
theorem ne_of_isLetter_or_isDigit {c : Char} (hc : isLetter c = true ∨ c.isDigit = true) :
    isBlank c = false ∧ c ≠ '=' ∧ c ≠ '!' ∧ c ≠ '"' := by
  refine ⟨?_, ?_, ?_, ?_⟩
  · rw [Bool.eq_false_iff]
    intro hb
    simp only [isBlank, Bool.or_eq_true, beq_iff_eq] at hb
    rcases hb with ((rfl | rfl) | rfl) | rfl <;> revert hc <;> decide
  all_goals
    rintro rfl
    revert hc
    decide

/-- Letters, and the underscore with them, come after the digits. -/
theorem le_val_of_isLetter {c : Char} (h : isLetter c = true) : 'A'.val ≤ c.val := by
  rcases Bool.or_eq_true_iff.mp h with h | h
  · rcases Bool.or_eq_true_iff.mp h with hupper | hlower
    · exact (of_decide_eq_true hupper).1
    · have ha := of_decide_eq_true (Bool.and_eq_true_iff.mp hlower).1
      exact UInt32.le_trans (by decide) ha
  · obtain rfl := eq_of_beq h
    decide

theorem not_isLetter_of_isDigit {c : Char} (hc : c.isDigit = true) : isLetter c = false := by
  rw [Bool.eq_false_iff]
  intro h
  have hc9 : c.val ≤ '9'.val := of_decide_eq_true (Bool.and_eq_true_iff.mp hc).2
  exact absurd (UInt32.le_trans (le_val_of_isLetter h) hc9) (by decide)

theorem read_letters (hne : w ≠ []) (hw : ∀ c ∈ w, isLetter c = true)
    (hstop : ∀ d ∈ cs.head?, isLetter d = false) :
    ∃ c w', w = c :: w' ∧ isBlank c = false ∧
      Lexeme.read c (w' ++ cs) = Lexeme.plain (.ofWord (String.ofList w)) w cs := by
  obtain ⟨c, w, rfl⟩ := List.exists_cons_of_ne_nil hne
  have hc := hw c (by simp)
  obtain ⟨hblank, heq, hbang, hquote⟩ := ne_of_isLetter_or_isDigit (.inl hc)
  have hread : Lexeme.read c (w ++ cs) = Lexeme.word (c :: w ++ cs) := by
    simp [Lexeme.read, heq, hbang, hquote, hc]
  refine ⟨c, w, rfl, hblank, ?_⟩
  rw [hread, Lexeme.word]
  simp only [takeWhile_append_stop hw hstop, dropWhile_append_stop hw hstop]

/-- Letters are one word. -/
theorem words_letters (hne : w ≠ []) (hw : ∀ c ∈ w, isLetter c = true) (hcs : Delimited cs) :
    words (w ++ cs) = (Kind.ofWord (String.ofList w), w) :: words cs := by
  obtain ⟨c, w', rfl, hblank, hread⟩ := read_letters hne hw fun d hd => (hcs d hd).1
  rw [List.cons_append, words_cons hblank, hread]
  rfl

theorem words_name (hw : Token.IsName w) (hcs : Delimited cs) :
    words (w ++ cs) = (.ident, w) :: words cs := by
  rw [words_letters hw.1 hw.2.1 hcs, hw.2.2]

theorem read_digits (hw : Token.IsDigits w) :
    ∃ c w', w = c :: w' ∧ isBlank c = false ∧
      ∀ cs, Lexeme.read c (w' ++ cs) = Lexeme.number (w ++ cs) := by
  obtain ⟨c, w, rfl⟩ := List.exists_cons_of_ne_nil hw.1
  have hc := hw.2 c (by simp)
  obtain ⟨hblank, heq, hbang, hquote⟩ := ne_of_isLetter_or_isDigit (.inr hc)
  refine ⟨c, w, rfl, hblank, fun cs => ?_⟩
  simp [Lexeme.read, heq, hbang, hquote, hc, not_isLetter_of_isDigit hc]

/-- Digits are a whole number if neither a digit comes after them nor a point and a digit. -/
theorem number_digits (hw : Token.IsDigits w) (hstop : ∀ d ∈ cs.head?, d.isDigit = false)
    (hpoint : ∀ d rest, cs = '.' :: d :: rest → d.isDigit = false) :
    Lexeme.number (w ++ cs) = Lexeme.plain .int w cs := by
  unfold Lexeme.number
  simp only [takeWhile_append_stop hw.2 hstop, dropWhile_append_stop hw.2 hstop]
  split
  · next d rest => simp [hpoint d rest rfl]
  · rfl

theorem number_decimal {whole fraction : List Char} (hwhole : Token.IsDigits whole)
    (hfraction : Token.IsDigits fraction) (hstop : ∀ d ∈ cs.head?, d.isDigit = false) :
    Lexeme.number (whole ++ '.' :: (fraction ++ cs)) =
      Lexeme.plain .float (whole ++ '.' :: fraction) cs := by
  have hpoint : ∀ d ∈ ('.' :: (fraction ++ cs)).head?, d.isDigit = false := by simp
  unfold Lexeme.number
  simp only [takeWhile_append_stop hwhole.2 hpoint, dropWhile_append_stop hwhole.2 hpoint]
  obtain ⟨d, fraction, rfl⟩ := List.exists_cons_of_ne_nil hfraction.1
  have hd : d.isDigit = true := hfraction.2 d (by simp)
  simp only [List.cons_append, hd, if_true]
  rw [← List.cons_append, takeWhile_append_stop hfraction.2 hstop,
    dropWhile_append_stop hfraction.2 hstop]

theorem words_digits (hw : Token.IsDigits w) (hcs : Delimited cs) :
    words (w ++ cs) = (.int, w) :: words cs := by
  have hnumber := number_digits hw (fun d hd => (hcs d hd).2.1) fun d rest h => by
    simp [h] at hcs
  obtain ⟨c, w', rfl, hblank, hread⟩ := read_digits hw
  rw [List.cons_append, words_cons hblank, hread, hnumber]
  rfl

theorem words_decimal (hw : Token.IsDecimal w) (hcs : Delimited cs) :
    words (w ++ cs) = (.float, w) :: words cs := by
  obtain ⟨whole, fraction, rfl, hwhole, hfraction⟩ := hw
  have hnumber := number_decimal hwhole hfraction fun d hd => (hcs d hd).2.1
  obtain ⟨c, w', rfl, hblank, hread⟩ := read_digits hwhole
  simp only [List.cons_append, List.append_assoc] at hnumber ⊢
  rw [words_cons hblank, hread, List.cons_append, hnumber]
  rfl

theorem forall_mem_ne {c : Char} (hw : c ∉ w) : ∀ d ∈ w, (d != c) = true := by
  intro d hd
  simp only [bne_iff_ne]
  rintro rfl
  exact hw hd

theorem quoted_closed (hw : '"' ∉ w) (cs : List Char) :
    Lexeme.quoted (w ++ '"' :: cs) = ⟨.string, w, '"' :: (w ++ ['"']), cs⟩ := by
  have hall := forall_mem_ne hw
  have hstop : ∀ c ∈ ('"' :: cs).head?, (c != '"') = false := by simp
  unfold Lexeme.quoted
  simp only [takeWhile_append_stop hall hstop, dropWhile_append_stop hall hstop]

/-- A string is one word whatever comes after it. -/
theorem words_string (hw : '"' ∉ w) (cs : List Char) :
    words ('"' :: (w ++ '"' :: cs)) = (.string, w) :: words cs := by
  have hread : Lexeme.read '"' (w ++ '"' :: cs) = ⟨.string, w, '"' :: (w ++ ['"']), cs⟩ :=
    quoted_closed hw cs
  rw [words_cons rfl, hread]

end Delimited

end Monkey
