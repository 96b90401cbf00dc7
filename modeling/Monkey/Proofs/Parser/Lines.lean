import Monkey.Proofs.Parser.Concatenation
import Monkey.Proofs.Printing.Bare

/-!
# The lines of a text

A line is complete if nothing is wrong with it and it ends with a semicolon, or has no tokens
(`Complete`). A complete line has statements exactly if it has tokens
(`Complete.statements_eq_nil_iff`), and a newline after it changes nothing
(`Complete.parse_newline`). Nothing is wrong with complete lines that are joined by newlines
either, and the statements of such a text are those of its lines, one line after the other, but
for the places of their tokens (`parse_intercalate`).
-/

namespace Monkey

open Monkey.Parser

/-! ## Trees further down, without their tokens -/

mutual

theorem Expr.bare_down (k : Nat) : ∀ e : Expr, (e.down k).bare = e.bare
  | .ident _ | .boolean _ _ | .integer _ _ | .float _ _ | .string _ _ => rfl
  | .array _ es => by rw [Expr.down, Expr.bare, Expr.bare, Expr.bareAll_downAll k es]
  | .hash _ ps => by rw [Expr.down, Expr.bare, Expr.bare, Expr.barePairs_downPairs k ps]
  | .unary _ _ e => by rw [Expr.down, Expr.bare, Expr.bare, e.bare_down k]
  | .binary _ _ l r => by rw [Expr.down, Expr.bare, Expr.bare, l.bare_down k, r.bare_down k]
  | .conditional _ c b none => by
    rw [Expr.down, Expr.bare, Expr.bare, c.bare_down k, b.bare_down k]
  | .conditional _ c b (some a) => by
    rw [Expr.down, Expr.bare, Expr.bare, c.bare_down k, b.bare_down k, a.bare_down k]
  | .function _ ids b => by
    rw [Expr.down, Expr.bare, Expr.bare, b.bare_down k, List.map_map]
    rfl
  | .call _ f es => by
    rw [Expr.down, Expr.bare, Expr.bare, f.bare_down k, Expr.bareAll_downAll k es]
  | .index _ e key => by rw [Expr.down, Expr.bare, Expr.bare, e.bare_down k, key.bare_down k]
termination_by structural e => e

theorem Expr.bareAll_downAll (k : Nat) : ∀ es, Expr.bareAll (Expr.downAll k es) = Expr.bareAll es
  | [] => rfl
  | e :: es => by
    rw [Expr.downAll, Expr.bareAll, Expr.bareAll, e.bare_down k, Expr.bareAll_downAll k es]
termination_by structural es => es

theorem Expr.barePairs_downPairs (k : Nat) :
    ∀ ps, Expr.barePairs (Expr.downPairs k ps) = Expr.barePairs ps
  | [] => rfl
  | (key, value) :: ps => by
    rw [Expr.downPairs, Expr.barePairs, Expr.barePairs, key.bare_down k, value.bare_down k,
      Expr.barePairs_downPairs k ps]
termination_by structural ps => ps

theorem Stmt.bare_down (k : Nat) : ∀ s : Stmt, (s.down k).bare = s.bare
  | .bind _ _ e => by
    rw [Stmt.down, Stmt.bare, Stmt.bare, e.bare_down k]
    rfl
  | .ret _ (some e) => by rw [Stmt.down, Stmt.bare, Stmt.bare, e.bare_down k]
  | .ret _ none => rfl
  | .expr _ e => by rw [Stmt.down, Stmt.bare, Stmt.bare, e.bare_down k]
termination_by structural s => s

theorem Stmt.bareAll_downAll (k : Nat) : ∀ ss, Stmt.bareAll (Stmt.downAll k ss) = Stmt.bareAll ss
  | [] => rfl
  | s :: ss => by
    rw [Stmt.downAll, Stmt.bareAll, Stmt.bareAll, s.bare_down k, Stmt.bareAll_downAll k ss]
termination_by structural ss => ss

theorem Block.bare_down (k : Nat) : ∀ b : Block, (b.down k).bare = b.bare
  | .mk _ ss => by rw [Block.down, Block.bare, Block.bare, Stmt.bareAll_downAll k ss]
termination_by structural b => b

end

theorem Stmt.bareAll_append (ss ts : List Stmt) :
    Stmt.bareAll (ss ++ ts) = Stmt.bareAll ss ++ Stmt.bareAll ts := by
  induction ss with
  | nil => rfl
  | cons s ss ih => rw [List.cons_append, Stmt.bareAll, Stmt.bareAll, ih, List.cons_append]

/-! ## One line -/

/-- Statements are read where there are tokens, unless one is reported. -/
theorem Parser.Turns.ne_nil {s s' : State} {body : List Stmt} (heof : s.eof.kind = .eof)
    (hend : s.atEnd = false) (h : Turns s body s')
    (hclean : s'.reported.length = s.reported.length) : body ≠ [] := by
  cases h with
  | ends hend' => exact absurd hend' (by simp [hend])
  | @turn _ _ r others _ hturn hothers =>
    obtain ⟨_ | first, s₁⟩ := r
    · have hreports := hturn.reports heof
      have hafter := reaches_afterTurn (none : Option Stmt) s₁
      have hreaches : s.Reaches (afterTurn (none, s₁)) := (hturn.reaches heof).trans hafter
      have hlater := hothers.toEnds.reaches (hreaches.eof ▸ heof)
      have hle := hafter.length_reported_le
      have hle' : _ ≤ s'.reported.length := hlater.length_reported_le
      omega
    · exact List.cons_ne_nil first others

/-- Nothing is wrong with a line, and it ends with a semicolon or has no tokens. -/
structure Complete (line : String) : Prop where
  clean : (parse line).diagnostics = []
  last : ∀ t ∈ (Token.scan line).tokens.getLast?, t.kind = .semicolon

instance (line : String) : Decidable (Complete line) :=
  decidable_of_iff ((parse line).diagnostics = [] ∧
      ∀ t ∈ (Token.scan line).tokens.getLast?, t.kind = .semicolon)
    ⟨fun h => ⟨h.1, h.2⟩, fun h => ⟨h.clean, h.last⟩⟩

/-- Where there are no tokens, nothing is read. -/
theorem parse_of_tokens_eq_nil {line : String} (h : (Token.scan line).tokens = []) :
    parse line = ⟨⟨[]⟩, []⟩ := by
  have heof := Token.kind_eof_scan line
  have hend : (State.ofStream (Token.scan line)).atEnd = true := by
    simp [State.atEnd, State.current, State.ofStream, h, heof]
  exact TokenStream.parse_of_turns heof (.ends hend)

theorem parse_empty : parse "" = ⟨⟨[]⟩, []⟩ :=
  parse_of_tokens_eq_nil (by simp [Token.scan, Token.scanFrom])

namespace Complete

variable {line : String}

/-- A complete line has statements if it has tokens. -/
theorem statements_eq_nil_iff (h : Complete line) :
    (parse line).program.statements = [] ↔ (Token.scan line).tokens = [] := by
  refine ⟨fun hnil => ?_, fun hnil => by rw [parse_of_tokens_eq_nil hnil]⟩
  have heof := Token.kind_eof_scan line
  obtain ⟨body, s', hturns⟩ := Turns.exists_turns (s := .ofStream (Token.scan line)) heof
  have hparse : parse line = ⟨⟨body⟩, s'.reported.reverse⟩ := TokenStream.parse_of_turns heof hturns
  have hclean := h.clean
  rw [hparse] at hnil hclean
  have hend : (State.ofStream (Token.scan line)).atEnd = true := by
    refine Bool.of_not_eq_false fun hend => hturns.ne_nil heof hend ?_ hnil
    rw [List.reverse_eq_nil_iff.mp hclean]
    rfl
  exact State.ahead_eq_nil_of_atEnd (fun _ => Token.kind_ne_eof_of_mem_scan) rfl hend

/-- A newline at the end of a complete line changes nothing. -/
theorem parse_newline (h : Complete line) : parse (line ++ "\n") = parse line := by
  have hboth := parse_append_eq line "" h.last (.inl h.clean)
  rw [String.append_empty, parse_empty] at hboth
  simpa using hboth

end Complete

/-! ## Lines joined by newlines -/

/-- The statements of a text, without their tokens. -/
def bareStatements (text : String) : List Stmt := Stmt.bareAll (parse text).program.statements

theorem bareStatements_append {s₁ : String} (h : Complete s₁) (s₂ : String) :
    bareStatements (s₁ ++ "\n" ++ s₂) = bareStatements s₁ ++ bareStatements s₂ := by
  rw [bareStatements, parse_append_eq s₁ s₂ h.last (.inl h.clean), Stmt.bareAll_append,
    ← Stmt.downAll_eq_map, Stmt.bareAll_downAll]
  rfl

/-- Lines that are joined by newlines are parsed one after the other. -/
theorem parse_intercalate {lines : List String} (h : ∀ line ∈ lines, Complete line) :
    (parse ("\n".intercalate lines)).diagnostics = [] ∧
      bareStatements ("\n".intercalate lines) = lines.flatMap bareStatements := by
  induction lines with
  | nil =>
    rw [String.intercalate_nil, bareStatements, parse_empty]
    exact ⟨rfl, rfl⟩
  | cons line lines ih =>
    have hline := h line List.mem_cons_self
    obtain ⟨hclean, hbare⟩ := ih fun other hother => h other (List.mem_cons_of_mem line hother)
    cases lines with
    | nil => simpa using hline.clean
    | cons next lines =>
      rw [String.intercalate_cons_cons]
      constructor
      · rw [parse_append_eq line _ hline.last (.inl hline.clean), hclean, hline.clean]
        rfl
      · rw [bareStatements_append hline, hbare]
        rfl

end Monkey
