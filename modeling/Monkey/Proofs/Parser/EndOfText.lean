import Monkey.Proofs.Parser.Anchors

/-!
# The place of the end token

The end token of a text should stand behind the last character. Every lexeme moves the place past
its own text, with one exception: a string that is never closed moves it past the quote that is
missing as well (`Lexeme.extends_read`). A quote is part of a lexeme only if it opens or closes a
string, so the exception is met exactly if the number of quotes is odd, and then the end token is
one column too far to the right (`Token.location_eof_scan`).

Tokens can also be taken one at a time (`Token.Cursor`). At the end of the text the cursor stays
where it is, so the end token comes again and again, always in the same place
(`Token.Cursor.nth_eq`). A diagnostic about an end token is about this one.
-/

namespace Monkey

open Token (Kind)

/-! ## Quotes -/

/-- How many quotes are missing behind a text: one if its quotes are odd in number, and else none. -/
def openQuotes (cs : List Char) : Nat := cs.count '"' % 2

theorem openQuotes_append {cs : List Char} (h : openQuotes cs = 0) (ds : List Char) :
    openQuotes (cs ++ ds) = openQuotes ds := by
  unfold openQuotes at *
  rw [List.count_append]
  omega

namespace Lexeme

/-- A lexeme moves the place past its text, and past one more quote if it leaves a quote open. Then
nothing is left behind it. -/
structure Extends (x : Lexeme) : Prop where
  extent : x.extent = x.kind.lexeme x.literal ++
    List.replicate (openQuotes (x.kind.lexeme x.literal)) '"'
  rest : openQuotes (x.kind.lexeme x.literal) ≠ 0 → x.rest = []

/-- The quote that is missing behind a lexeme is the one that is missing behind the text. -/
theorem Extends.extent_append {x : Lexeme} (h : x.Extends) :
    x.extent ++ (x.rest ++ List.replicate (openQuotes x.rest) '"') =
      x.kind.lexeme x.literal ++ x.rest ++
        List.replicate (openQuotes (x.kind.lexeme x.literal ++ x.rest)) '"' := by
  by_cases hopen : openQuotes (x.kind.lexeme x.literal) = 0
  · rw [h.extent, hopen, openQuotes_append hopen, List.replicate_zero, List.append_nil,
      List.append_assoc]
  · have hnone : openQuotes [] = 0 := rfl
    rw [h.extent, h.rest hopen, hnone, List.replicate_zero, List.append_nil, List.append_nil,
      List.append_nil]

theorem extends_plain {kind : Kind} (hkind : kind ≠ .string) {w : List Char} (hw : '"' ∉ w)
    (rest : List Char) : (plain kind w rest).Extends := by
  have hlexeme : kind.lexeme w = w := if_neg hkind
  have hnone : openQuotes (kind.lexeme w) = 0 := by
    rw [hlexeme, openQuotes, List.count_eq_zero.mpr hw]
  refine ⟨?_, fun hopen => absurd hnone hopen⟩
  show w = kind.lexeme w ++ List.replicate (openQuotes (kind.lexeme w)) '"'
  rw [hnone, hlexeme, List.replicate_zero, List.append_nil]

theorem extends_withEquals {one two : Kind} (hone : one ≠ .string) (htwo : two ≠ .string) {c : Char}
    (hc : c ≠ '"') (cs : List Char) : (withEquals one two c cs).Extends := by
  unfold withEquals
  split
  · exact extends_plain htwo (by simp [Ne.symm hc]) _
  · exact extends_plain hone (by simp [Ne.symm hc]) _

theorem extends_quoted (cs : List Char) : (quoted cs).Extends := by
  have hbody : (cs.takeWhile (· != '"')).count '"' = 0 :=
    List.count_eq_zero.mpr (not_mem_takeWhile '"' cs)
  unfold quoted
  split
  · -- the two quotes of a string that is closed
    have hnone : openQuotes (Kind.string.lexeme (cs.takeWhile (· != '"'))) = 0 := by
      simp [Kind.lexeme, openQuotes, hbody]
    refine ⟨?_, fun hopen => absurd hnone hopen⟩
    rw [hnone]
    simp [Kind.lexeme]
  · have hone : openQuotes (Kind.illegal.lexeme ('"' :: cs.takeWhile (· != '"'))) = 1 := by
      simp [Kind.lexeme, openQuotes, hbody]
    refine ⟨?_, fun _ => rfl⟩
    rw [hone]
    simp [Kind.lexeme]

theorem not_mem_of_forall_isDigit {w : List Char} (hw : ∀ c ∈ w, c.isDigit = true) : '"' ∉ w :=
  fun hmem => absurd (hw '"' hmem) (by decide)

theorem extends_number (cs : List Char) : (number cs).Extends := by
  have hwhole := not_mem_of_forall_isDigit (forall_mem_takeWhile Char.isDigit cs)
  unfold number
  split
  · next d rest _ =>
    have hfraction := not_mem_of_forall_isDigit (forall_mem_takeWhile Char.isDigit (d :: rest))
    split
    · refine extends_plain (by decide) ?_ _
      rw [List.mem_append, List.mem_cons]
      exact not_or.mpr ⟨hwhole, not_or.mpr ⟨by decide, hfraction⟩⟩
    · exact extends_plain (by decide) hwhole _
  · exact extends_plain (by decide) hwhole _

theorem symbol?_ne_string {c : Char} : (symbol? c).getD .illegal ≠ .string := by
  unfold symbol?
  split <;> decide

theorem extends_read (c : Char) (cs : List Char) : (read c cs).Extends := by
  unfold read
  split
  · next h => exact h ▸ extends_withEquals (by decide) (by decide) (by decide) cs
  split
  · next h => exact h ▸ extends_withEquals (by decide) (by decide) (by decide) cs
  split
  · exact extends_quoted cs
  split
  · have hletters := forall_mem_takeWhile isLetter (c :: cs)
    exact extends_plain (ofWord_ne_string _) (fun hmem => absurd (hletters '"' hmem) (by decide)) _
  split
  · exact extends_number (c :: cs)
  · next hquote _ _ => exact extends_plain symbol?_ne_string (by simpa using Ne.symm hquote) cs

end Lexeme

namespace Token

/-! ## Where the end token stands -/

/-- Scanned from where a text stands, the end token is behind the text and behind one more quote if
the quotes of the text are left open. -/
theorem location_eof_scanFrom (before cs : List Char) :
    (scanFrom (.behind before) cs).eof.location =
      .behind (before ++ cs ++ List.replicate (openQuotes cs) '"') := by
  generalize hl : Location.behind before = l
  fun_induction scanFrom l cs generalizing before with
  | case1 => simp [openQuotes, ← hl]
  | case2 l c cs hc ih =>
    have hquote : openQuotes [c] = 0 := by
      simp only [isBlank, Bool.or_eq_true, beq_iff_eq] at hc
      rcases hc with ((rfl | rfl) | rfl) | rfl <;> rfl
    have hplace : Location.behind (before ++ [c]) = l.past c := by
      rw [Location.behind_append, hl]
      rfl
    have hsame : openQuotes (c :: cs) = openQuotes cs := openQuotes_append hquote cs
    rw [ih _ hplace, hsame]
    simp only [List.append_assoc, List.singleton_append]
  | case3 l c cs hc lexeme later ih =>
    have htext := (Lexeme.starts_read (Bool.eq_false_iff.mpr hc) cs).text
    have hextent := (Lexeme.extends_read c cs).extent_append
    have hplace : Location.behind (before ++ lexeme.extent) = l.pastAll lexeme.extent := by
      rw [Location.behind_append, hl]
    rw [htext] at hextent
    show later.eof.location = _
    rw [ih _ hplace, List.append_assoc, List.append_assoc, hextent, ← List.append_assoc]

theorem behind_append_quotes (cs : List Char) (k : Nat) :
    Location.behind (cs ++ List.replicate k '"') =
      ⟨1 + cs.count '\n', 1 + (lastLine cs).length + k⟩ := by
  induction k with
  | zero => rw [List.replicate_zero, List.append_nil]; rfl
  | succ k ih =>
    rw [List.replicate_succ', ← List.append_assoc, Location.behind_append, ih]
    rfl

/-- The end token is behind the text, or one column further if the quotes are odd in number. -/
theorem location_eof_scan (source : String) :
    (scan source).eof.location = ⟨1 + source.toList.count '\n',
      1 + (lastLine source.toList).length + openQuotes source.toList⟩ := by
  rw [← behind_append_quotes]
  exact location_eof_scanFrom [] source.toList

/-! ## Taking tokens one at a time -/

/-- The text that is left to scan, and where it stands. -/
structure Cursor where
  place : Location
  left : List Char

namespace Cursor

/-- In front of a text. -/
def start (source : String) : Cursor := ⟨Location.start, source.toList⟩

/-- The next token, and what is left behind it. At the end of the text it is the end token, and
nothing changes any more. -/
def next (s : Cursor) : Token × Cursor :=
  let place := s.place.pastAll (s.left.takeWhile isBlank)
  match s.left.dropWhile isBlank with
  | [] => (⟨.eof, "", place⟩, ⟨place, []⟩)
  | c :: cs =>
    let lexeme := Lexeme.read c cs
    (⟨lexeme.kind, String.ofList lexeme.literal, place⟩,
      ⟨place.pastAll lexeme.extent, lexeme.rest⟩)

/-- The token that is taken after `n` others. -/
def nth (s : Cursor) : Nat → Token
  | 0 => s.next.1
  | n + 1 => s.next.2.nth n

/-- All tokens of the text that is left. -/
def stream (s : Cursor) : TokenStream := scanFrom s.place s.left

/-- The next token is the first one of those that are left, and the others stay. -/
theorem next_eq (s : Cursor) : s.next.1 = s.stream.tokens.headD s.stream.eof ∧
    s.next.2.stream = ⟨s.stream.tokens.tail, s.stream.eof⟩ := by
  have hgap := scanFrom_gap (Lexeme.forall_mem_takeWhile isBlank s.left) s.place
    (s.left.dropWhile isBlank)
  have hstop := Lexeme.head?_dropWhile isBlank s.left
  rw [List.takeWhile_append_dropWhile] at hgap
  unfold stream next
  rw [hgap]
  rcases hleft : s.left.dropWhile isBlank with _ | ⟨c, cs⟩
  · simp only [scanFrom]
    exact ⟨rfl, rfl⟩
  · rw [hleft] at hstop
    have hc : isBlank c = false := hstop c rfl
    rw [scanFrom, if_neg (by simp [hc])]
    exact ⟨rfl, rfl⟩

/-- Taken one at a time, tokens come in the order of the text, and after them the end token. -/
theorem nth_eq (s : Cursor) (n : Nat) :
    s.nth n = (s.stream.tokens[n]?).getD s.stream.eof := by
  induction n generalizing s with
  | zero =>
    rw [nth, s.next_eq.1]
    cases s.stream.tokens <;> rfl
  | succ n ih =>
    rw [nth, ih, s.next_eq.2]
    cases s.stream.tokens <;> rfl

end Cursor

end Token

/-! ## Diagnostics about the end -/

theorem Anchored.token_mem {all : List Token} {high : Nat} {ds : List Diagnostic}
    (h : Anchored all high ds) {d : Diagnostic} (hd : d ∈ ds) : d.token ∈ all := by
  induction ds generalizing high with
  | nil => cases hd
  | cons d' ds ih =>
    obtain ⟨i, -, htoken, hrest⟩ := h
    rcases List.mem_cons.mp hd with rfl | hd
    · exact List.mem_of_getElem? htoken
    · exact ih hrest hd

/-- A diagnostic is about a token of the text or about its end token. -/
theorem token_mem_of_mem_diagnostics {source : String} {d : Diagnostic}
    (h : d ∈ (parse source).diagnostics) : d.token ∈ (Token.scan source).toList := by
  obtain ⟨body, s', hends, hparse, -⟩ := ends_parse source
  have hstart : Parser.Call.statements.InStep (Token.scan source) (.ofStream (Token.scan source)) :=
    Or.inl ⟨⟨List.suffix_refl _, rfl⟩, trivial⟩
  have hnear := hends.near (fun _ => Token.kind_ne_eof_of_mem_scan) (Token.kind_eof_scan source)
    hstart
  rw [hparse, List.mem_reverse] at h
  exact hnear.anchored.token_mem h

theorem token_eq_eof_of_kind {source : String} {d : Diagnostic}
    (h : d ∈ (parse source).diagnostics) (hkind : d.token.kind = .eof) :
    d.token = (Token.scan source).eof := by
  rcases List.mem_append.mp (token_mem_of_mem_diagnostics h) with hmem | hmem
  · exact absurd hkind (Token.kind_ne_eof_of_mem_scan hmem)
  · exact List.mem_singleton.mp hmem

namespace Token

/-- **Where the end of a text is told to be.** However often tokens are taken after the last one, it
is the same end token that comes. Its line is that of the end of the text. Its column is that
behind the last character if the text has an even number of quotes, and one more if it has an odd
number, which is to say that its last token is a string that is never closed. Diagnostics that are
about an end token point to this place. -/
theorem eof_behind_text_iff (source : String) :
    let eof := (scan source).eof
    (∀ n, n < (scan source).tokens.length ∧ ((Cursor.start source).nth n).kind ≠ .eof ∨
        (scan source).tokens.length ≤ n ∧ (Cursor.start source).nth n = eof) ∧
      eof.location = ⟨1 + source.toList.count '\n',
        1 + (lastLine source.toList).length + source.toList.count '"' % 2⟩ ∧
      (eof.location = .behind source.toList ↔ source.toList.count '"' % 2 = 0) ∧
      ∀ d ∈ (parse source).diagnostics, d.token.kind = .eof →
        d.token = eof ∧ d.message = eof.location.render ++ ": " ++ d.complaint := by
  intro eof
  have hlocation : eof.location = _ := location_eof_scan source
  refine ⟨fun n => ?_, hlocation, ?_, fun d hd hkind => ?_⟩
  · have hnth : (Cursor.start source).nth n = ((scan source).tokens[n]?).getD eof :=
      (Cursor.start source).nth_eq n
    rw [hnth]
    rcases Nat.lt_or_ge n (scan source).tokens.length with hn | hn
    · rw [List.getElem?_eq_getElem hn]
      exact .inl ⟨hn, kind_ne_eof_of_mem_scan (List.getElem_mem hn)⟩
    · rw [List.getElem?_eq_none hn]
      exact .inr ⟨hn, rfl⟩
  · rw [hlocation, Location.behind, Location.mk.injEq, openQuotes]
    omega
  · have htoken := token_eq_eof_of_kind hd hkind
    refine ⟨htoken, ?_⟩
    rw [Diagnostic.message, htoken]

/-- The block of this text is not closed, and the diagnostic points to the line after it. -/
theorem eof_behind_text_of_block :
    let source := "fn() \x7b \"a\"\n"
    (scan source).eof.location = .behind source.toList ∧
      (Cursor.start source).nth 9 = (scan source).eof ∧
      Diagnostic.unexpected .rbrace (scan source).eof ∈ (parse source).diagnostics ∧
      (Diagnostic.unexpected .rbrace (scan source).eof).message =
        "2:1: expected next token to be RBRACE, got EOF (\"\") instead" := by
  intro source
  obtain ⟨hnth, -, hplace, hdiagnostic⟩ := eof_behind_text_iff source
  have hmem : Diagnostic.unexpected .rbrace (scan source).eof ∈ (parse source).diagnostics := by
    decide +kernel
  refine ⟨hplace.mpr (by decide +kernel), (hnth 9).elim (fun h => ?_) And.right, hmem, ?_⟩
  · exact absurd h.1 (by decide +kernel)
  · rw [(hdiagnostic _ hmem (kind_eof_scan source)).2]
    decide +kernel

/-- A string that is never closed: the end token is not behind the text but one column further,
and so is the diagnostic about a block that is not closed. -/
theorem eof_beyond_unclosed_string :
    Location.behind "\"abc".toList = ⟨1, 5⟩ ∧
      (scan "\"abc").eof.location = ⟨1, 6⟩ ∧ ((Cursor.start "\"abc").nth 1).location = ⟨1, 6⟩ ∧
      Location.behind "fn() \x7b \"abc".toList = ⟨1, 12⟩ ∧
      "1:13: expected next token to be RBRACE, got EOF (\"\") instead" ∈
        (parse "fn() \x7b \"abc").diagnostics.map Diagnostic.message := by
  decide +kernel

end Token

end Monkey
