import Monkey.Number.Binary64
import Monkey.Number.Digits
import Monkey.Proofs.Scanning
import Monkey.Tree.Printer

/-!
# The words of a printed tree

`Expr.spelling` gives the words that an expression is printed with: operations and
indexing in parentheses, commas between elements, a semicolon after every
statement. `words_render` says that scanning the printed text gives these words
back, if the tree is one that can be written at all (`Expr.Printable`): its names
are names, its numbers have the value of their text, its strings hold no quote and
its operators exist.

Whether a word ends where it was printed to end depends on what is printed after
it. So the statement is about a text before any other text that does not go on
with it (`Reads`). A statement ends with a semicolon, and what comes after it does
not matter.
-/

namespace Monkey

open Token (Kind)

/-- Kind of an operator. -/
def Token.Kind.ofOperator (operator : String) : Kind :=
  match operator with
  | "==" => .eq
  | "!=" => .notEq
  | "<" => .lt
  | ">" => .gt
  | "+" => .plus
  | "-" => .minus
  | "*" => .asterisk
  | "/" => .slash
  | "!" => .bang
  | _ => .illegal

/-- Operators that stand before their operand. -/
def unaryKinds : List Kind := [.minus, .bang]

/-- Operators that stand between their operands. -/
def binaryKinds : List Kind := [.eq, .notEq, .lt, .gt, .plus, .minus, .asterisk, .slash]

mutual

/-- An expression that can be written and read back. -/
def Expr.Printable : Expr → Prop
  | .ident id => Token.IsName id.name.toList
  | .boolean _ _ => True
  | .integer token value =>
    Token.IsDigits token.literal.toList ∧ digitsValue token.literal.toList ≤ 0x7fffffffffffffff ∧
      value = Int64.ofInt (digitsValue token.literal.toList)
  | .float token value =>
    Token.IsDecimal token.literal.toList ∧ value = Binary64.ofDecimal token.literal
  | .string _ value => '"' ∉ value.toList
  | .array _ elements => Expr.PrintableAll elements
  | .hash _ pairs => Expr.PrintablePairs pairs
  | .unary _ operator operand => Kind.ofOperator operator ∈ unaryKinds ∧ operand.Printable
  | .binary _ operator left right =>
    Kind.ofOperator operator ∈ binaryKinds ∧ left.Printable ∧ right.Printable
  | .conditional _ condition consequence none => condition.Printable ∧ consequence.Printable
  | .conditional _ condition consequence (some alternative) =>
    condition.Printable ∧ consequence.Printable ∧ alternative.Printable
  | .function _ parameters body =>
    (∀ id ∈ parameters, Token.IsName id.name.toList) ∧ body.Printable
  | .call _ callee arguments => callee.Printable ∧ Expr.PrintableAll arguments
  | .index _ target key => target.Printable ∧ key.Printable
termination_by structural e => e

/-- Expressions that can be written and read back. -/
def Expr.PrintableAll : List Expr → Prop
  | [] => True
  | e :: es => e.Printable ∧ Expr.PrintableAll es
termination_by structural es => es

/-- Pairs that can be written and read back. -/
def Expr.PrintablePairs : List (Expr × Expr) → Prop
  | [] => True
  | (key, value) :: pairs => key.Printable ∧ value.Printable ∧ Expr.PrintablePairs pairs
termination_by structural pairs => pairs

/-- A statement that can be written and read back. -/
def Stmt.Printable : Stmt → Prop
  | .bind _ name value => Token.IsName name.name.toList ∧ value.Printable
  | .ret _ (some value) => value.Printable
  | .ret _ none => True
  | .expr _ expression => expression.Printable
termination_by structural s => s

/-- Statements that can be written and read back. -/
def Stmt.PrintableAll : List Stmt → Prop
  | [] => True
  | s :: ss => s.Printable ∧ Stmt.PrintableAll ss
termination_by structural ss => ss

/-- A block that can be written and read back. -/
def Block.Printable : Block → Prop
  | .mk _ statements => Stmt.PrintableAll statements
termination_by structural b => b

end

/-! ## Spelling -/

/-- Words with commas between them. -/
def commaWords (ws : List (List Word)) : List Word :=
  [Kind.comma.word].intercalate ws

mutual

/-- The words of an expression. -/
def Expr.spelling : Expr → List Word
  | .ident id => [(.ident, id.name.toList)]
  | .boolean _ value => [if value then Kind.kwTrue.word else Kind.kwFalse.word]
  | .integer token _ => [(.int, token.literal.toList)]
  | .float token _ => [(.float, token.literal.toList)]
  | .string _ value => [(.string, value.toList)]
  | .array _ elements =>
    Kind.lbracket.word :: (commaWords (Expr.spellAll elements) ++ [Kind.rbracket.word])
  | .hash _ pairs =>
    Kind.lbrace.word :: (commaWords (Expr.spellPairs pairs) ++ [Kind.rbrace.word])
  | .unary _ operator operand =>
    Kind.lparen.word :: (Kind.ofOperator operator).word :: (operand.spelling ++ [Kind.rparen.word])
  | .binary _ operator left right =>
    Kind.lparen.word :: (left.spelling ++ (Kind.ofOperator operator).word ::
      (right.spelling ++ [Kind.rparen.word]))
  | .conditional _ condition consequence none =>
    Kind.kwIf.word :: Kind.lparen.word ::
      (condition.spelling ++ Kind.rparen.word :: consequence.spelling)
  | .conditional _ condition consequence (some alternative) =>
    Kind.kwIf.word :: Kind.lparen.word :: (condition.spelling ++ Kind.rparen.word ::
      (consequence.spelling ++ Kind.kwElse.word :: alternative.spelling))
  | .function _ parameters body =>
    Kind.kwFn.word :: Kind.lparen.word ::
      (commaWords (parameters.map fun id => [(.ident, id.name.toList)]) ++
        Kind.rparen.word :: body.spelling)
  | .call _ callee arguments =>
    callee.spelling ++ Kind.lparen.word ::
      (commaWords (Expr.spellAll arguments) ++ [Kind.rparen.word])
  | .index _ target key =>
    Kind.lparen.word :: (target.spelling ++ Kind.lbracket.word ::
      (key.spelling ++ [Kind.rbracket.word, Kind.rparen.word]))
termination_by structural e => e

/-- The words of some expressions. -/
def Expr.spellAll : List Expr → List (List Word)
  | [] => []
  | e :: es => e.spelling :: Expr.spellAll es
termination_by structural es => es

/-- The words of some pairs, each with a colon. -/
def Expr.spellPairs : List (Expr × Expr) → List (List Word)
  | [] => []
  | (key, value) :: pairs =>
    (key.spelling ++ Kind.colon.word :: value.spelling) :: Expr.spellPairs pairs
termination_by structural pairs => pairs

/-- The words of a statement. -/
def Stmt.spelling : Stmt → List Word
  | .bind _ name value =>
    Kind.kwLet.word :: (.ident, name.name.toList) :: Kind.assign.word ::
      (value.spelling ++ [Kind.semicolon.word])
  | .ret _ (some value) => Kind.kwReturn.word :: (value.spelling ++ [Kind.semicolon.word])
  | .ret _ none => [Kind.kwReturn.word, Kind.semicolon.word]
  | .expr _ expression => expression.spelling ++ [Kind.semicolon.word]
termination_by structural s => s

/-- The words of some statements. -/
def Stmt.spellAll : List Stmt → List Word
  | [] => []
  | s :: ss => s.spelling ++ Stmt.spellAll ss
termination_by structural ss => ss

/-- The words of a block. -/
def Block.spelling : Block → List Word
  | .mk _ statements => Kind.lbrace.word :: (Stmt.spellAll statements ++ [Kind.rbrace.word])
termination_by structural b => b

end

/-! ## Printed text -/

/-- A text gives some words before anything that does not go on with it. -/
def Reads (text : String) (ws : List Word) : Prop :=
  ∀ cs, Delimited cs → words (text.toList ++ cs) = ws ++ words cs

/-- A keyword is a word that is read as that keyword. -/
theorem words_keyword (kind : Kind) (hne : kind.text ≠ []) (hall : kind.text.all isLetter = true)
    (hword : Kind.ofWord (String.ofList kind.text) = kind) {cs : List Char}
    (hcs : Delimited cs) : words (kind.text ++ cs) = kind.word :: words cs := by
  rw [words_letters hne (List.all_eq_true.mp hall) hcs, hword, Kind.word]

section Keywords

variable (cs : List Char)

theorem words_if : words ('i' :: 'f' :: ' ' :: cs) = Kind.kwIf.word :: words cs := by
  rw [← words_space cs]
  exact words_keyword .kwIf nofun rfl rfl (by simp; decide)

theorem words_else : words ('e' :: 'l' :: 's' :: 'e' :: ' ' :: cs) =
    Kind.kwElse.word :: words cs := by
  rw [← words_space cs]
  exact words_keyword .kwElse nofun rfl rfl (by simp; decide)

theorem words_fn : words ('f' :: 'n' :: '(' :: cs) =
    Kind.kwFn.word :: Kind.lparen.word :: words cs := by
  rw [← words_symbol (c := '(') rfl]
  exact words_keyword .kwFn nofun rfl rfl (by simp; decide)

theorem words_let : words ('l' :: 'e' :: 't' :: ' ' :: cs) = Kind.kwLet.word :: words cs := by
  rw [← words_space cs]
  exact words_keyword .kwLet nofun rfl rfl (by simp; decide)

theorem words_return {c : Char} (hc : Delimited (c :: cs)) :
    words ('r' :: 'e' :: 't' :: 'u' :: 'r' :: 'n' :: c :: cs) =
      Kind.kwReturn.word :: words (c :: cs) :=
  words_keyword .kwReturn nofun rfl rfl hc

end Keywords

/-- An operator between two blanks. -/
theorem words_operator {operator : String} (h : Kind.ofOperator operator ∈ binaryKinds)
    (cs : List Char) :
    words (operator.toList ++ ' ' :: cs) = (Kind.ofOperator operator).word :: words cs := by
  unfold Kind.ofOperator at h ⊢
  split <;> simp [binaryKinds] at h ⊢
  · rw [words_eq, words_space]
  · rw [words_notEq, words_space]
  all_goals rw [words_symbol rfl, words_space]

/-- An operator right before its operand. -/
theorem words_unaryOperator {operator : String} (h : Kind.ofOperator operator ∈ unaryKinds)
    (cs : List Char) (hcs : cs.head? ≠ some '=') :
    words (operator.toList ++ cs) = (Kind.ofOperator operator).word :: words cs := by
  unfold Kind.ofOperator at h ⊢
  split <;> simp [unaryKinds] at h ⊢
  · rw [words_symbol rfl]
  · rw [words_bang hcs]

theorem Expr.renderPairs_eq_map (ps : List (Expr × Expr)) :
    Expr.renderPairs ps = ps.map fun p => p.1.render ++ ": " ++ p.2.render := by
  induction ps with
  | nil => rfl
  | cons p ps ih => simp [Expr.renderPairs, ih]

theorem Expr.spellAll_eq_map (es : List Expr) : Expr.spellAll es = es.map Expr.spelling := by
  induction es with
  | nil => rfl
  | cons e es ih => simp [Expr.spellAll, ih]

theorem Expr.spellPairs_eq_map (ps : List (Expr × Expr)) :
    Expr.spellPairs ps = ps.map fun p => p.1.spelling ++ Kind.colon.word :: p.2.spelling := by
  induction ps with
  | nil => rfl
  | cons p ps ih => simp [Expr.spellPairs, ih]

theorem Token.IsName.head?_eq {w : List Char} (h : Token.IsName w) :
    ∃ c, w.head? = some c ∧ c ≠ '=' := by
  obtain ⟨c, cs, rfl⟩ := List.exists_cons_of_ne_nil h.1
  exact ⟨c, rfl, (ne_of_isLetter_or_isDigit (.inl (h.2.1 c (by simp)))).2.1⟩

theorem Token.IsDigits.head?_eq {w : List Char} (h : Token.IsDigits w) :
    ∃ c, w.head? = some c ∧ c ≠ '=' := by
  obtain ⟨c, cs, rfl⟩ := List.exists_cons_of_ne_nil h.1
  exact ⟨c, rfl, (ne_of_isLetter_or_isDigit (.inr (h.2 c (by simp)))).2.1⟩

/-- No printed expression is empty or starts with an equals sign. -/
theorem Expr.head?_render : ∀ e : Expr, e.Printable →
    ∃ c, e.render.toList.head? = some c ∧ c ≠ '='
  | .ident id, h => by
    rw [Expr.Printable] at h
    exact h.head?_eq
  | .integer t _, h => by
    rw [Expr.Printable] at h
    exact h.1.head?_eq
  | .float t _, h => by
    rw [Expr.Printable] at h
    obtain ⟨⟨whole, fraction, hw, hwhole, -⟩, -⟩ := h
    obtain ⟨c, hc, hne⟩ := hwhole.head?_eq
    exact ⟨c, by simp [Expr.render, hw, hc], hne⟩
  | .call _ f _, h => by
    rw [Expr.Printable] at h
    obtain ⟨c, hc, hne⟩ := f.head?_render h.1
    exact ⟨c, by simp [Expr.render, hc], hne⟩
  | .boolean _ true, _ | .boolean _ false, _ | .string _ _, _ | .array _ _, _ | .hash _ _, _
  | .unary _ _ _, _ | .binary _ _ _ _, _ | .index _ _ _, _ | .conditional _ _ _ none, _
  | .conditional _ _ _ (some _), _ | .function _ _ _, _ => by simp [Expr.render]
termination_by structural e => e

/-- Texts with commas between them give their words with commas between them. -/
theorem reads_commaSeparated {α : Type} {f : α → String} {g : α → List Word} :
    ∀ {l : List α}, (∀ a ∈ l, Reads (f a) (g a)) →
      Reads (commaSeparated (l.map f)) (commaWords (l.map g))
  | [], _ => fun cs _ => by simp [commaSeparated, commaWords]
  | [a], h => by simpa [commaSeparated, commaWords] using h a
  | a :: b :: l, h => by
    intro cs hcs
    have hrest := reads_commaSeparated (fun x hx => h x (List.mem_cons_of_mem _ hx))
    have htext : (commaSeparated ((a :: b :: l).map f)).toList ++ cs =
        (f a).toList ++ ',' :: ' ' :: ((commaSeparated ((b :: l).map f)).toList ++ cs) := by
      simp [commaSeparated]
    rw [htext, h a (by simp) _ (by simp; decide), words_symbol rfl, words_space, hrest cs hcs]
    simp [commaWords]

/-- Statements with blanks between them give their words one after the other. -/
theorem words_blankSeparated (cs : List Char) : ∀ {ss : List Stmt},
    (∀ s ∈ ss, ∀ cs, words (s.render.toList ++ cs) = s.spelling ++ words cs) →
      words ((blankSeparated (Stmt.renderAll ss)).toList ++ cs) = Stmt.spellAll ss ++ words cs
  | [], _ => by simp [blankSeparated, Stmt.renderAll, Stmt.spellAll]
  | [s], h => by simpa [blankSeparated, Stmt.renderAll, Stmt.spellAll] using h s (by simp) cs
  | s :: s' :: ss, h => by
    have hrest := words_blankSeparated cs
      (fun x hx => h x (List.mem_cons_of_mem _ hx))
    have htext : (blankSeparated (Stmt.renderAll (s :: s' :: ss))).toList ++ cs =
        s.render.toList ++ ' ' :: ((blankSeparated (Stmt.renderAll (s' :: ss))).toList ++ cs) := by
      simp [blankSeparated, Stmt.renderAll]
    rw [htext, h s (by simp), words_space, hrest]
    simp [Stmt.spellAll]

theorem reads_parameters {ids : List Ident} (h : ∀ id ∈ ids, Token.IsName id.name.toList) :
    Reads (commaSeparated (ids.map (·.name)))
      (commaWords (ids.map fun id => [(.ident, id.name.toList)])) :=
  reads_commaSeparated fun id hid _ hcs => words_name (h id hid) hcs

mutual

/-- A printed expression gives its words. -/
theorem Expr.reads_render : ∀ e : Expr, e.Printable → Reads e.render e.spelling
  | .ident id, h, cs, hcs => by
    rw [Expr.Printable] at h
    exact words_name h hcs
  | .boolean _ true, _, cs, hcs => by
    simpa [Expr.render, Expr.spelling, Kind.text] using words_keyword .kwTrue nofun rfl rfl hcs
  | .boolean _ false, _, cs, hcs => by
    simpa [Expr.render, Expr.spelling, Kind.text] using words_keyword .kwFalse nofun rfl rfl hcs
  | .integer t _, h, cs, hcs => by
    rw [Expr.Printable] at h
    exact words_digits h.1 hcs
  | .float t _, h, cs, hcs => by
    rw [Expr.Printable] at h
    exact words_decimal h.1 hcs
  | .string _ v, h, cs, _ => by
    rw [Expr.Printable] at h
    simpa [Expr.render, Expr.spelling] using words_string h cs
  | .array _ es, h, cs, _ => by
    rw [Expr.Printable] at h
    have hes := reads_commaSeparated (Expr.reads_render_all es h) (']' :: cs) (by simp; decide)
    rw [← Expr.renderAll_eq_map, ← Expr.spellAll_eq_map] at hes
    simp [Expr.render, Expr.spelling, words_symbol (c := '[') rfl, words_symbol (c := ']') rfl, hes]
  | .hash _ ps, h, cs, _ => by
    rw [Expr.Printable] at h
    have hps := reads_commaSeparated (Expr.reads_render_pairs ps h) ('\x7d' :: cs)
      (by simp; decide)
    rw [← Expr.renderPairs_eq_map, ← Expr.spellPairs_eq_map] at hps
    simp [Expr.render, Expr.spelling, words_symbol (c := '\x7b') rfl,
      words_symbol (c := '\x7d') rfl, hps]
  | .unary _ op e, h, cs, _ => by
    rw [Expr.Printable] at h
    obtain ⟨c, hc, hne⟩ := e.head?_render h.2
    have he := e.reads_render h.2 (')' :: cs) (by simp; decide)
    have hop := words_unaryOperator h.1 (e.render.toList ++ ')' :: cs) (by simp [hc, hne])
    simp [Expr.render, Expr.spelling, words_symbol (c := '(') rfl, words_symbol (c := ')') rfl,
      hop, he]
  | .binary _ op l r, h, cs, _ => by
    rw [Expr.Printable] at h
    have hl (cs : List Char) := l.reads_render h.2.1 (' ' :: cs) (by simp; decide)
    have hr := r.reads_render h.2.2 (')' :: cs) (by simp; decide)
    simp [Expr.render, Expr.spelling, words_symbol (c := '(') rfl, words_symbol (c := ')') rfl,
      hl, words_operator h.1, hr]
  | .conditional _ c b none, h, cs, _ => by
    rw [Expr.Printable] at h
    have hc (cs : List Char) := c.reads_render h.1 (')' :: cs) (by simp; decide)
    simp [Expr.render, Expr.spelling, words_if, words_symbol (c := '(') rfl,
      words_symbol (c := ')') rfl, hc, b.words_render h.2]
  | .conditional _ c b (some a), h, cs, hcs => by
    rw [Expr.Printable] at h
    have hc (cs : List Char) := c.reads_render h.1 (')' :: cs) (by simp; decide)
    simp [Expr.render, Expr.spelling, words_if, words_else, words_symbol (c := '(') rfl,
      words_symbol (c := ')') rfl, hc, b.words_render h.2.1, a.words_render h.2.2]
  | .function _ ids b, h, cs, _ => by
    rw [Expr.Printable] at h
    have hids (cs : List Char) := reads_parameters h.1 (')' :: cs) (by simp; decide)
    simp [Expr.render, Expr.spelling, Ident.renderParameters, words_fn,
      words_symbol (c := ')') rfl, hids, b.words_render h.2]
  | .call _ f es, h, cs, _ => by
    rw [Expr.Printable] at h
    have hf (cs : List Char) := f.reads_render h.1 ('(' :: cs) (by simp; decide)
    have hes := reads_commaSeparated (Expr.reads_render_all es h.2) (')' :: cs) (by simp; decide)
    rw [← Expr.renderAll_eq_map, ← Expr.spellAll_eq_map] at hes
    simp [Expr.render, Expr.spelling, words_symbol (c := '(') rfl, words_symbol (c := ')') rfl,
      hf, hes]
  | .index _ e k, h, cs, _ => by
    rw [Expr.Printable] at h
    have he (cs : List Char) := e.reads_render h.1 ('[' :: cs) (by simp; decide)
    have hk (cs : List Char) := k.reads_render h.2 (']' :: cs) (by simp; decide)
    simp [Expr.render, Expr.spelling, words_symbol (c := '(') rfl, words_symbol (c := ')') rfl,
      words_symbol (c := '[') rfl, words_symbol (c := ']') rfl, he, hk]
termination_by structural e => e

theorem Expr.reads_render_all : ∀ es, Expr.PrintableAll es →
    ∀ e ∈ es, Reads e.render e.spelling
  | [], _, _, he => absurd he List.not_mem_nil
  | e :: es, h, e', he' => by
    rw [Expr.PrintableAll] at h
    rcases List.mem_cons.mp he' with heq | he'
    · exact heq ▸ e.reads_render h.1
    · exact Expr.reads_render_all es h.2 e' he'
termination_by structural es => es

theorem Expr.reads_render_pairs : ∀ ps, Expr.PrintablePairs ps →
    ∀ p ∈ ps, Reads (p.1.render ++ ": " ++ p.2.render)
      (p.1.spelling ++ Kind.colon.word :: p.2.spelling)
  | [], _, _, hp => absurd hp List.not_mem_nil
  | (k, v) :: ps, h, p, hp => by
    rw [Expr.PrintablePairs] at h
    rcases List.mem_cons.mp hp with rfl | hp
    · intro cs hcs
      have hk (cs : List Char) := k.reads_render h.1 (':' :: cs) (by simp; decide)
      simp [hk, words_symbol (c := ':') rfl, v.reads_render h.2.1 cs hcs]
    · exact Expr.reads_render_pairs ps h.2.2 p hp
termination_by structural ps => ps

/-- A printed statement gives its words, whatever comes after it. -/
theorem Stmt.words_render : ∀ s : Stmt, s.Printable →
    ∀ cs, words (s.render.toList ++ cs) = s.spelling ++ words cs
  | .bind _ id e, h, cs => by
    rw [Stmt.Printable] at h
    have hid (cs : List Char) : words (id.name.toList ++ ' ' :: cs) = _ :=
      words_name h.1 (by simp; decide)
    have he := e.reads_render h.2 (';' :: cs) (by simp; decide)
    simp [Stmt.render, Stmt.spelling, words_let, words_assign, words_symbol (c := ';') rfl, hid, he]
  | .ret _ (some e), h, cs => by
    rw [Stmt.Printable] at h
    have he := e.reads_render h (';' :: cs) (by simp; decide)
    have hret (cs : List Char) := words_return cs (c := ' ') (by simp; decide)
    simp [Stmt.render, Stmt.spelling, hret, words_symbol (c := ';') rfl, he]
  | .ret _ none, _, cs => by
    have hret := words_return cs (c := ';') (by simp; decide)
    simp [Stmt.render, Stmt.spelling, hret, words_symbol (c := ';') rfl]
  | .expr _ e, h, cs => by
    rw [Stmt.Printable] at h
    have he := e.reads_render h (';' :: cs) (by simp; decide)
    simp [Stmt.render, Stmt.spelling, words_symbol (c := ';') rfl, he]
termination_by structural s => s

theorem Stmt.words_render_all : ∀ ss, Stmt.PrintableAll ss →
    ∀ s ∈ ss, ∀ cs, words (s.render.toList ++ cs) = s.spelling ++ words cs
  | [], _, _, hs => absurd hs List.not_mem_nil
  | s :: ss, h, s', hs' => by
    rw [Stmt.PrintableAll] at h
    rcases List.mem_cons.mp hs' with heq | hs'
    · exact heq ▸ s.words_render h.1
    · exact Stmt.words_render_all ss h.2 s' hs'
termination_by structural ss => ss

/-- A printed block gives its words, whatever comes after it. -/
theorem Block.words_render : ∀ b : Block, b.Printable →
    ∀ cs, words (b.render.toList ++ cs) = b.spelling ++ words cs
  | .mk _ ss, h, cs => by
    rw [Block.Printable] at h
    have hss := words_blankSeparated (' ' :: '\x7d' :: cs) (Stmt.words_render_all ss h)
    cases ss with
    | nil =>
      simp [Block.render, Block.spelling, Stmt.spellAll, words_symbol (c := '\x7b') rfl,
        words_symbol (c := '\x7d') rfl]
    | cons s ss =>
      rw [Stmt.renderAll] at hss
      simp [Block.render, Block.spelling, words_symbol (c := '\x7b') rfl,
        words_symbol (c := '\x7d') rfl, hss]
termination_by structural b => b

end

/-- A printed program gives the words of its statements. -/
theorem Program.words_render {p : Program} (h : Stmt.PrintableAll p.statements) :
    words p.render.toList = Stmt.spellAll p.statements := by
  simpa [Program.render] using words_blankSeparated [] (Stmt.words_render_all _ h)

end Monkey
