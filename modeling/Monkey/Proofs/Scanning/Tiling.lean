import Mathlib.Data.List.Induction
import Monkey.Proofs.Scanning

/-!
# Tokens tile their text

A text is the lexemes of its tokens, one after the other, with nothing but blanks before,
between and after them. Each lexeme is as long as its kind allows, and each token has the
place of its first character (`Token.Tiles`). This says everything about the tokens: a
text is tiled by the tokens that are scanned from it (`Token.tiles_scanFrom`), and by no
others (`Token.Tiles.eq_tokens`).

What a token of a kind can be written as, and what can come after it, is `Fits`. It does
not mention how a text is scanned. `Lexeme.starts_read` and `Lexeme.read_of_fits` say that
reading a lexeme off a text is the same as finding one that fits.
-/

namespace Monkey

open Token (Kind)

/-! ## Places -/

/-- The characters after the last newline of a text. -/
def lastLine (cs : List Char) : List Char := (cs.reverse.takeWhile (· != '\n')).reverse

/-- Place of what comes after a text: past its newlines, and past the characters after the last
of them. -/
def Location.behind (before : List Char) : Location :=
  ⟨1 + before.count '\n', 1 + (lastLine before).length⟩

theorem Location.pastAll_start (before : List Char) :
    start.pastAll before = behind before := by
  induction before using List.reverseRecOn with
  | nil => rfl
  | append_singleton cs c ih =>
    rw [pastAll_append, ih, pastAll_cons, pastAll_nil]
    by_cases hc : c = '\n'
    · subst hc
      simp [behind, past, lastLine, Nat.add_assoc]
    · simp [behind, past, lastLine, hc, Nat.add_assoc]

theorem Location.behind_append (before cs : List Char) :
    behind (before ++ cs) = (behind before).pastAll cs := by
  rw [← pastAll_start, pastAll_append, pastAll_start]

/-! ## What a token is written as -/

/-- The text that a token is read from: its literal, with quotes around it if it is a string. -/
def Token.Kind.lexeme (kind : Kind) (w : List Char) : List Char :=
  if kind = .string then '"' :: (w ++ ['"']) else w

/-- A character with which no token starts that is not illegal. -/
def IsStray (c : Char) : Prop :=
  isBlank c = false ∧ isLetter c = false ∧ c.isDigit = false ∧ c ≠ '=' ∧ c ≠ '!' ∧ c ≠ '"' ∧
    Lexeme.symbol? c = none

/-- `Fits kind w rest`: a token of the kind can have the literal `w` before the text `rest`.
A word, a number or an operator does not go on in `rest`. -/
inductive Fits : Kind → List Char → List Char → Prop
  | word {w rest : List Char} (hne : w ≠ []) (hw : ∀ c ∈ w, isLetter c = true)
      (hrest : ∀ c ∈ rest.head?, isLetter c = false) : Fits (.ofWord (String.ofList w)) w rest
  | int {w rest : List Char} (hw : Token.IsDigits w) (hrest : ∀ c ∈ rest.head?, c.isDigit = false)
      (hpoint : ∀ d cs, rest = '.' :: d :: cs → d.isDigit = false) : Fits .int w rest
  | float {w rest : List Char} (hw : Token.IsDecimal w)
      (hrest : ∀ c ∈ rest.head?, c.isDigit = false) : Fits .float w rest
  | string {w rest : List Char} (hw : '"' ∉ w) : Fits .string w rest
  /-- A string that is never closed reaches to the end of the text. -/
  | unclosed {w : List Char} (hw : '"' ∉ w) : Fits .illegal ('"' :: w) []
  | assign {rest : List Char} (hrest : rest.head? ≠ some '=') : Fits .assign ['='] rest
  | bang {rest : List Char} (hrest : rest.head? ≠ some '=') : Fits .bang ['!'] rest
  | eq {rest : List Char} : Fits .eq ['=', '='] rest
  | notEq {rest : List Char} : Fits .notEq ['!', '='] rest
  | symbol {c : Char} {kind : Kind} {rest : List Char} (hc : Lexeme.symbol? c = some kind) :
    Fits kind [c] rest
  | stray {c : Char} {rest : List Char} (hc : IsStray c) : Fits .illegal [c] rest

namespace Fits

variable {kind : Kind} {w rest : List Char}

theorem lexeme_ne_nil (h : Fits kind w rest) : kind.lexeme w ≠ [] := by
  by_cases hkind : kind = .string
  · simp [Kind.lexeme, hkind]
  · rw [Kind.lexeme, if_neg hkind]
    cases h with
    | word hne => exact hne
    | int hw => exact hw.1
    | float hw =>
      obtain ⟨whole, fraction, rfl, -⟩ := hw
      simp
    | string => exact absurd rfl hkind
    | _ => simp

/-- A lexeme of letters is the keyword that it spells, or an identifier. -/
theorem kind_eq_ofWord (h : Fits kind w rest) (hletters : ∀ c ∈ kind.lexeme w, isLetter c = true) :
    kind = .ofWord (String.ofList w) := by
  cases h with
  | word => rfl
  | int hw =>
    obtain ⟨c, w, rfl⟩ := List.exists_cons_of_ne_nil hw.1
    have hdigit := hw.2 c (by simp)
    simp [Kind.lexeme, not_isLetter_of_isDigit hdigit] at hletters
  | float hw =>
    obtain ⟨whole, fraction, rfl, -⟩ := hw
    have hpoint := hletters '.' (by simp [Kind.lexeme])
    contradiction
  | symbol hc =>
    unfold Lexeme.symbol? at hc
    split at hc <;> cases hc <;> simp [Kind.lexeme, isLetter] at hletters
  | stray hc => simp [Kind.lexeme, hc.2.1] at hletters
  | string | unclosed =>
    have hquote := hletters '"' (by simp [Kind.lexeme])
    contradiction
  | _ =>
    simp [Kind.lexeme] at hletters
    contradiction

/-- A blank ends every lexeme but a string that is never closed. -/
theorem before_blank {p q : List Char} (h : Fits kind w (p ++ q))
    (hclosed : p ++ q = [] → kind ≠ .illegal) {c : Char} (hc : isBlank c = true) (cs : List Char) :
    Fits kind w (p ++ c :: cs) := by
  have hblank : isLetter c = false ∧ c.isDigit = false ∧ c ≠ '=' ∧ c ≠ '.' := by
    simp only [isBlank, Bool.or_eq_true, beq_iff_eq] at hc
    rcases hc with ((rfl | rfl) | rfl) | rfl <;> decide
  have hhead {P : Char → Prop} (hrest : ∀ d ∈ (p ++ q).head?, P d) (hP : P c) :
      ∀ d ∈ (p ++ c :: cs).head?, P d := by
    cases p with
    | nil => simpa using hP
    | cons d p => simpa using hrest
  have hequals (hstop : (p ++ q).head? ≠ some '=') : (p ++ c :: cs).head? ≠ some '=' := by
    cases p with
    | nil => simpa using hblank.2.2.1
    | cons d p => simpa using hstop
  generalize hrest : p ++ q = rest at h hclosed hhead hequals
  cases h with
  | word hne hw hstop => exact .word hne hw (hhead hstop hblank.1)
  | int hw hstop hpoint =>
    refine .int hw (hhead hstop hblank.2.1) fun d ds heq => ?_
    rcases p with _ | ⟨e, _ | ⟨e', es⟩⟩
    · exact absurd (List.cons.inj heq).1 hblank.2.2.2
    · obtain ⟨-, rfl, -⟩ : e = '.' ∧ c = d ∧ cs = ds := by simpa using heq
      exact hblank.2.1
    · obtain ⟨rfl, rfl, -⟩ : e = '.' ∧ e' = d ∧ es ++ c :: cs = ds := by simpa using heq
      exact hpoint e' (es ++ q) hrest.symm
  | float hw hstop => exact .float hw (hhead hstop hblank.2.1)
  | string hw => exact .string hw
  | unclosed => exact absurd rfl (hclosed rfl)
  | assign hstop => exact .assign (hequals hstop)
  | bang hstop => exact .bang (hequals hstop)
  | eq => exact .eq
  | notEq => exact .notEq
  | symbol hc => exact .symbol hc
  | stray hc => exact .stray hc

/-- Blanks in front of a later token go to no lexeme before them. -/
theorem before_gap {p q gap : List Char} (h : Fits kind w (p ++ q)) (hq : q ≠ [])
    (hgap : ∀ c ∈ gap, isBlank c = true) : Fits kind w (p ++ (gap ++ q)) := by
  cases gap with
  | nil => exact h
  | cons c gap => exact h.before_blank (by simp [hq]) (hgap c (by simp)) (gap ++ q)

end Fits

/-! ## Reading a lexeme -/

namespace Lexeme

/-- A lexeme is at the start of a text, fits there, and moves the place past its text, unless
nothing is left. -/
structure Starts (x : Lexeme) (cs : List Char) : Prop where
  fits : Fits x.kind x.literal x.rest
  text : x.kind.lexeme x.literal ++ x.rest = cs
  extent : x.extent = x.kind.lexeme x.literal ∨ x.rest = []

theorem starts_plain {kind : Kind} (hkind : kind ≠ .string) {w rest : List Char}
    (hfits : Fits kind w rest) : (plain kind w rest).Starts (w ++ rest) := by
  have hlexeme : kind.lexeme w = w := if_neg hkind
  exact ⟨hfits, congrArg (· ++ rest) hlexeme, Or.inl hlexeme.symm⟩

theorem starts_withEquals {one two : Kind} (hone : one ≠ .string) (htwo : two ≠ .string) {c : Char}
    {cs : List Char} (h₁ : cs.head? ≠ some '=' → Fits one [c] cs)
    (h₂ : ∀ rest, Fits two [c, '='] rest) : (withEquals one two c cs).Starts (c :: cs) := by
  unfold withEquals
  split
  · exact starts_plain htwo (h₂ _)
  · next hne =>
    refine starts_plain hone (h₁ fun hhead => ?_)
    obtain ⟨rest, rfl⟩ := List.head?_eq_some_iff.mp hhead
    exact hne rest rfl

theorem head?_dropWhile (p : Char → Bool) (cs : List Char) :
    ∀ c ∈ (cs.dropWhile p).head?, p c = false := by
  intro c hc
  have hnot := List.head?_dropWhile_not p cs
  rw [hc] at hnot
  simpa using hnot

theorem starts_quoted (cs : List Char) : (quoted cs).Starts ('"' :: cs) := by
  have hbody := not_mem_takeWhile '"' cs
  have hsplit : cs.takeWhile (· != '"') ++ cs.dropWhile (· != '"') = cs :=
    List.takeWhile_append_dropWhile
  unfold quoted
  split
  · next q rest heq =>
    have hq : q = '"' := by
      have hstop := head?_dropWhile (· != '"') cs
      rw [heq] at hstop
      simpa using hstop q rfl
    subst hq
    refine ⟨.string hbody, ?_, Or.inl rfl⟩
    rw [heq] at hsplit
    simpa [Kind.lexeme] using hsplit
  · next heq =>
    refine ⟨.unclosed hbody, ?_, Or.inr rfl⟩
    rw [heq] at hsplit
    simpa [Kind.lexeme] using hsplit

theorem ofWord_ne_string (word : String) : Kind.ofWord word ≠ .string := by
  unfold Kind.ofWord
  split <;> decide

theorem starts_word {c : Char} (hc : isLetter c = true) (cs : List Char) :
    (word (c :: cs)).Starts (c :: cs) := by
  have hfits := Fits.word (w := (c :: cs).takeWhile isLetter) (by simp [hc])
    (forall_mem_takeWhile _ _) (head?_dropWhile isLetter (c :: cs))
  have hstarts := starts_plain (ofWord_ne_string _) hfits
  rwa [List.takeWhile_append_dropWhile] at hstarts

theorem starts_number {c : Char} (hc : c.isDigit = true) (cs : List Char) :
    (number (c :: cs)).Starts (c :: cs) := by
  have hwhole := isDigits_takeWhile hc cs
  have hstop := head?_dropWhile Char.isDigit (c :: cs)
  have hsplit : (c :: cs).takeWhile Char.isDigit ++ (c :: cs).dropWhile Char.isDigit = c :: cs :=
    List.takeWhile_append_dropWhile
  unfold number
  split
  · next d rest heq =>
    rw [heq] at hstop hsplit
    split
    · next hd =>
      have hfraction := isDigits_takeWhile hd rest
      have hfits := Fits.float ⟨_, _, rfl, hwhole, hfraction⟩
        (head?_dropWhile Char.isDigit (d :: rest))
      have hstarts := starts_plain (by decide) hfits
      rwa [List.append_assoc, List.cons_append, List.takeWhile_append_dropWhile, hsplit] at hstarts
    · next hd =>
      have hfits := Fits.int hwhole hstop fun d' cs' hrest => by
        obtain ⟨rfl, -⟩ : d = d' ∧ rest = cs' := by simpa using hrest
        exact Bool.eq_false_iff.mpr hd
      have hstarts := starts_plain (by decide) hfits
      rwa [hsplit] at hstarts
  · next hne =>
    have hfits := Fits.int hwhole hstop fun d cs' hrest => absurd hrest (hne d cs')
    have hstarts := starts_plain (by decide) hfits
    rwa [hsplit] at hstarts

theorem starts_single {c : Char} (hblank : isBlank c = false) (hletter : isLetter c = false)
    (hdigit : c.isDigit = false) (heq : c ≠ '=') (hbang : c ≠ '!') (hquote : c ≠ '"')
    (cs : List Char) : (plain ((symbol? c).getD .illegal) [c] cs).Starts (c :: cs) := by
  cases hsymbol : symbol? c with
  | some kind =>
    have hkind : kind ≠ .string := by
      rintro rfl
      unfold symbol? at hsymbol
      split at hsymbol <;> cases hsymbol
    exact starts_plain hkind (.symbol hsymbol)
  | none =>
    have hstray : IsStray c := ⟨hblank, hletter, hdigit, heq, hbang, hquote, hsymbol⟩
    exact starts_plain (by decide) (.stray hstray)

/-- What is read is at the start of the text. -/
theorem starts_read {c : Char} (hblank : isBlank c = false) (cs : List Char) :
    (read c cs).Starts (c :: cs) := by
  unfold read
  split
  · next h => exact h ▸ starts_withEquals (by decide) (by decide) .assign fun _ => .eq
  split
  · next h => exact h ▸ starts_withEquals (by decide) (by decide) .bang fun _ => .notEq
  split
  · next h => exact h ▸ starts_quoted cs
  split
  · next hc => exact starts_word hc cs
  split
  · next hc => exact starts_number hc cs
  · next heq hbang hquote hletter hdigit =>
    exact starts_single hblank (Bool.eq_false_iff.mpr hletter) (Bool.eq_false_iff.mpr hdigit) heq
      hbang hquote cs

theorem quoted_unclosed {w : List Char} (hw : '"' ∉ w) :
    quoted w = ⟨.illegal, '"' :: w, '"' :: (w ++ ['"']), []⟩ := by
  have hall := forall_mem_ne hw
  have htake : (w ++ []).takeWhile (· != '"') = w := takeWhile_append_stop hall (by simp)
  have hdrop : (w ++ []).dropWhile (· != '"') = [] := dropWhile_append_stop hall (by simp)
  rw [List.append_nil] at htake hdrop
  simp only [quoted, htake, hdrop]

/-- What fits at the start of a text is what is read there. -/
theorem read_of_fits {kind : Kind} {w rest : List Char} (h : Fits kind w rest) :
    ∃ c cs extent, kind.lexeme w ++ rest = c :: cs ∧ isBlank c = false ∧
      read c cs = ⟨kind, w, extent, rest⟩ := by
  cases h with
  | word hne hw hrest =>
    obtain ⟨c, w', rfl, hblank, hread⟩ := read_letters hne hw hrest
    have hlexeme : (Kind.ofWord (String.ofList (c :: w'))).lexeme (c :: w') = c :: w' :=
      if_neg (ofWord_ne_string _)
    exact ⟨c, w' ++ rest, _, congrArg (· ++ rest) hlexeme, hblank, hread⟩
  | int hw hrest hpoint =>
    have hnumber := number_digits hw hrest hpoint
    obtain ⟨c, w', rfl, hblank, hread⟩ := read_digits hw
    exact ⟨c, w' ++ rest, _, rfl, hblank, (hread rest).trans hnumber⟩
  | float hw hrest =>
    obtain ⟨whole, fraction, rfl, hwhole, hfraction⟩ := hw
    have hnumber := number_decimal hwhole hfraction hrest
    obtain ⟨c, w', rfl, hblank, hread⟩ := read_digits hwhole
    refine ⟨c, w' ++ '.' :: (fraction ++ rest), _, ?_, hblank, (hread _).trans hnumber⟩
    simp [Kind.lexeme]
  | string hw =>
    refine ⟨'"', w ++ '"' :: rest, _, ?_, rfl, quoted_closed hw rest⟩
    simp [Kind.lexeme]
  | @unclosed w hw =>
    refine ⟨'"', w, _, ?_, rfl, quoted_unclosed hw⟩
    simp [Kind.lexeme]
  | assign hrest => exact ⟨'=', rest, _, rfl, rfl, withEquals_of_ne _ _ _ hrest⟩
  | bang hrest => exact ⟨'!', rest, _, rfl, rfl, withEquals_of_ne _ _ _ hrest⟩
  | eq => exact ⟨'=', '=' :: rest, _, rfl, rfl, rfl⟩
  | notEq => exact ⟨'!', '=' :: rest, _, rfl, rfl, rfl⟩
  | @symbol c _ _ hc =>
    unfold symbol? at hc
    split at hc <;> cases hc <;> exact ⟨_, rest, _, rfl, rfl, rfl⟩
  | @stray c _ hc =>
    obtain ⟨hblank, hletter, hdigit, heq, hbang, hquote, hsymbol⟩ := hc
    refine ⟨c, rest, [c], rfl, hblank, ?_⟩
    simp [read, plain, heq, hbang, hquote, hletter, hdigit, hsymbol]

end Lexeme

/-! ## Tiling -/

namespace Token

/-- The text that a token is read from. -/
def lexeme (t : Token) : List Char := t.kind.lexeme t.literal.toList

/-- `Tiles before cs ts`: the text `cs` is the lexemes of the tokens `ts` with blanks before,
between and after them, where `before` is the text in front of it. -/
inductive Tiles : List Char → List Char → List Token → Prop
  | blank {before gap : List Char} (hgap : ∀ c ∈ gap, isBlank c = true) : Tiles before gap []
  | token {before gap rest : List Char} {t : Token} {ts : List Token}
      (hgap : ∀ c ∈ gap, isBlank c = true) (hplace : t.location = .behind (before ++ gap))
      (hfits : Fits t.kind t.literal.toList rest)
      (htiles : Tiles (before ++ gap ++ t.lexeme) rest ts) :
      Tiles before (gap ++ (t.lexeme ++ rest)) (t :: ts)

/-- A blank in front goes to the first gap. -/
theorem Tiles.skip {before cs : List Char} {ts : List Token} {c : Char} (hc : isBlank c = true)
    (h : Tiles (before ++ [c]) cs ts) : Tiles before (c :: cs) ts := by
  have hcons : ∀ gap : List Char, (∀ d ∈ gap, isBlank d = true) →
      ∀ d ∈ c :: gap, isBlank d = true := by
    intro gap hgap d hd
    rcases List.mem_cons.mp hd with rfl | hd
    · exact hc
    · exact hgap d hd
  cases h with
  | blank hgap => exact .blank (hcons _ hgap)
  | token hgap hplace hfits htiles =>
    simp only [List.append_assoc, List.singleton_append] at hplace htiles
    rw [← List.cons_append]
    exact .token (hcons _ hgap) hplace hfits (by simpa using htiles)

/-- The tokens that are scanned tile the text. -/
theorem tiles_scanFrom (before cs : List Char) :
    Tiles before cs (scanFrom (.behind before) cs).tokens := by
  generalize hl : Location.behind before = l
  fun_induction scanFrom l cs generalizing before with
  | case1 => exact .blank (by simp)
  | case2 l c cs hc ih =>
    refine .skip hc (ih _ ?_)
    rw [← hl, Location.behind_append]
    rfl
  | case3 l c cs hc lexeme later ih =>
    obtain ⟨hfits, htext, hextent⟩ := Lexeme.starts_read (Bool.eq_false_iff.mpr hc) cs
    have hlater : Tiles (before ++ lexeme.kind.lexeme lexeme.literal) lexeme.rest
        (scanFrom (l.pastAll lexeme.extent) lexeme.rest).tokens := by
      rcases hextent with hextent | hrest
      · exact ih _ (by rw [← hl, Location.behind_append, hextent])
      -- The place does not matter at the end of the text: no token comes after an unclosed string.
      · rw [show lexeme.rest = [] from hrest, scanFrom]
        exact .blank (by simp)
    let t : Token := ⟨lexeme.kind, String.ofList lexeme.literal, l⟩
    have htext' : [] ++ (t.lexeme ++ lexeme.rest) = c :: cs := by
      simpa [t, Token.lexeme] using htext
    rw [← htext']
    exact .token (by simp) (by simpa using hl.symm) (by simpa [t] using hfits)
      (by simpa [t, Token.lexeme] using hlater)

/-- Blanks give no tokens, and move the place. -/
theorem scanFrom_gap {gap : List Char} (hgap : ∀ c ∈ gap, isBlank c = true) (l : Location)
    (cs : List Char) : scanFrom l (gap ++ cs) = scanFrom (l.pastAll gap) cs := by
  induction gap generalizing l with
  | nil => rfl
  | cons c gap ih =>
    rw [List.cons_append, scanFrom, if_pos (hgap c (by simp)),
      ih (fun d hd => hgap d (List.mem_cons_of_mem c hd)), Location.pastAll_cons]

/-- The place after a lexeme matters only if something is left to scan. -/
theorem tokens_scanFrom_cons {kind : Kind} {w rest : List Char} (h : Fits kind w rest)
    (before : List Char) :
    (scanFrom (.behind before) (kind.lexeme w ++ rest)).tokens =
      ⟨kind, String.ofList w, .behind before⟩ ::
        (scanFrom (.behind (before ++ kind.lexeme w)) rest).tokens := by
  obtain ⟨c, cs, extent, htext, hblank, hread⟩ := Lexeme.read_of_fits h
  have hextent := (Lexeme.starts_read hblank cs).extent
  rw [hread] at hextent
  rw [htext, scanFrom, if_neg (by simp [hblank]), hread]
  rcases hextent with hextent | hrest
  · simp only at hextent
    rw [Location.behind_append, hextent]
  · simp only at hrest
    simp [hrest, scanFrom]

/-- No other tokens tile the text. -/
theorem Tiles.eq_tokens {before cs : List Char} {ts : List Token} (h : Tiles before cs ts) :
    ts = (scanFrom (.behind before) cs).tokens := by
  induction h with
  | @blank before gap hgap =>
    have hscan := scanFrom_gap hgap (.behind before) []
    rw [List.append_nil] at hscan
    rw [hscan, scanFrom]
  | @token before gap rest t ts hgap hplace hfits htiles ih =>
    rw [scanFrom_gap hgap, ← Location.behind_append, lexeme, tokens_scanFrom_cons hfits, ih,
      ← hplace, String.ofList_toList, lexeme]

/-! ## Slices -/

/-- A token is a slice of the text, from a place in it to a later one, and has the location of
the slice's first character. -/
structure Occupies (t : Token) (text : List Char) (span : Nat × Nat) : Prop where
  nonempty : span.1 < span.2
  inside : span.2 ≤ text.length
  slice : text.extract span.1 span.2 = t.lexeme
  place : t.location = .behind (text.take span.1)

/-- The slices of the tokens, in the order of the text and without overlaps. -/
theorem Tiles.exists_spans {before cs : List Char} {ts : List Token} (h : Tiles before cs ts) :
    ∃ spans : List (Nat × Nat),
      List.Forall₂ (fun t span => t.Occupies (before ++ cs) span) ts spans ∧
        spans.Pairwise (fun a b => a.2 ≤ b.1) ∧ ∀ span ∈ spans, before.length ≤ span.1 := by
  induction h with
  | blank => exact ⟨[], .nil, .nil, by simp⟩
  | @token before gap rest t ts hgap hplace hfits htiles ih =>
    obtain ⟨spans, hspans, hordered, hbehind⟩ := ih
    have hne : 0 < t.lexeme.length := List.length_pos_iff.mpr hfits.lexeme_ne_nil
    have hle : before.length ≤ (before ++ gap).length := by simp
    rw [← List.append_assoc]
    generalize before ++ gap = lead at hplace htiles hspans hbehind hle ⊢
    have hfirst : t.Occupies (lead ++ (t.lexeme ++ rest))
        (lead.length, lead.length + t.lexeme.length) := by
      refine ⟨by simpa using hne, by simp, ?_, ?_⟩
      · simp [List.extract_eq_take_drop]
      · simpa using hplace
    have hlater : ∀ span ∈ spans, lead.length + t.lexeme.length ≤ span.1 := by
      intro span hspan
      simpa using hbehind span hspan
    rw [List.append_assoc] at hspans
    refine ⟨(lead.length, lead.length + t.lexeme.length) :: spans, .cons hfirst hspans,
      .cons hlater hordered, ?_⟩
    intro span hspan
    rcases List.mem_cons.mp hspan with rfl | hspan
    · exact hle
    · have hspan := hlater span hspan
      omega

theorem Tiles.kind_eq_ofWord {before cs : List Char} {ts : List Token} (h : Tiles before cs ts) :
    ∀ t ∈ ts, (∀ c ∈ t.lexeme, isLetter c = true) → t.kind = .ofWord t.literal := by
  induction h with
  | blank => simp
  | @token before gap rest t ts hgap hplace hfits htiles ih =>
    intro t' ht' hletters
    rcases List.mem_cons.mp ht' with rfl | ht'
    · simpa using hfits.kind_eq_ofWord hletters
    · exact ih t' ht' hletters

/-- **A text is its tokens.** A text gives finitely many tokens with one end token, which is the
last. The others tile the text, and nothing else tiles it. They are slices of it, one after the
other, and those made of letters have the kind of the word that they spell. -/
theorem scan_eq_tiling (source : String) :
    ∃ ts eof, (scan source).toList = ts ++ [eof] ∧ eof.kind = .eof ∧ (∀ t ∈ ts, t.kind ≠ .eof) ∧
      (∀ us, Tiles [] source.toList us ↔ us = ts) ∧
      (∀ t ∈ ts, (∀ c ∈ t.lexeme, isLetter c = true) → t.kind = .ofWord t.literal) ∧
      ∃ spans : List (Nat × Nat),
        List.Forall₂ (fun t span => t.Occupies source.toList span) ts spans ∧
          spans.Pairwise (fun a b => a.2 ≤ b.1) := by
  have htiles : Tiles [] source.toList (scan source).tokens := tiles_scanFrom [] source.toList
  obtain ⟨spans, hspans, hordered, -⟩ := htiles.exists_spans
  refine ⟨(scan source).tokens, (scan source).eof, rfl, kind_eof_scan source,
    fun t ht => kind_ne_eof_of_mem_scan ht, fun us => ⟨fun h => h.eq_tokens, ?_⟩,
    htiles.kind_eq_ofWord, spans, hspans, hordered⟩
  rintro rfl
  exact htiles

end Token

end Monkey
