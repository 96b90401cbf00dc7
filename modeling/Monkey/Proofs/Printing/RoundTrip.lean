import Monkey.Proofs.Grammar.Completeness
import Monkey.Proofs.Parser.Progress
import Monkey.Proofs.Printing.Derivation

/-!
# Printing and reading back

What the parser gives can be printed and read back, and only the tokens change
(`parse_render`). This does not depend on whether the text was well formed: each
tree that a parser gives is made of tokens that were scanned, also when other
statements around it or in it were skipped.

The first half shows that the parser gives printable trees only. It is an induction
on the bound on nesting, over runs that may report anything, from any state whose
tokens have been scanned (`State.Spelled`). The second half puts together scanning
and the grammar.
-/

namespace Monkey

open Monkey.Parser
open Token (Kind)

/-- All tokens ahead have literals that their kinds allow. -/
structure Parser.State.Spelled (s : State) : Prop where
  eof : s.eof.kind = .eof
  ahead : ∀ t ∈ s.ahead, t.kind.Spells t.literal.toList

namespace Parser.State.Spelled

variable {s s' : State}

theorem of_reaches (hs : s.Spelled) (h : s.Reaches s') : s'.Spelled :=
  ⟨h.eof ▸ hs.eof, fun t ht => hs.ahead t (h.ahead.subset ht)⟩

theorem after {α : Type} {x : Parser α} {a : α} (hs : s.Spelled) (hx : Orderly x)
    (h : Gives x s a s') : s'.Spelled :=
  hs.of_reaches (hx.reaches_of_gives h)

theorem advance (hs : s.Spelled) : s.advance.Spelled :=
  hs.of_reaches s.reaches_advance

/-- The current token is the end token or has a literal that its kind allows. -/
theorem current (hs : s.Spelled) {kind : Kind} (hk : s.current.kind = kind) (hne : kind ≠ .eof) :
    kind.Spells s.current.literal.toList := by
  subst hk
  unfold State.current at hne ⊢
  cases hahead : s.ahead with
  | nil =>
    rw [hahead] at hne
    exact absurd hs.eof hne
  | cons t ts => exact hs.ahead t (by simp [hahead])

end Parser.State.Spelled

namespace Parser

/-! ## The parser gives printable trees -/

/-- An operator is written in the one way in which its kind is. -/
theorem literal_of_operator {t : Token} (hk : t.kind ∈ unaryKinds ∨ t.kind ∈ binaryKinds)
    (hs : t.kind.Spells t.literal.toList) : t.literal.toList = t.kind.text := by
  obtain ⟨kind, literal, location⟩ := t
  cases kind <;> first | exact hs | simp [unaryKinds, binaryKinds] at hk

theorem ofOperator_literal {t : Token} (hk : t.kind ∈ unaryKinds ∨ t.kind ∈ binaryKinds)
    (hs : t.kind.Spells t.literal.toList) : Kind.ofOperator t.literal = t.kind := by
  have hliteral : t.literal = String.ofList t.kind.text := by
    rw [← literal_of_operator hk hs, String.ofList_toList]
  rw [hliteral]
  cases hkind : t.kind <;> first | rfl | simp [hkind, unaryKinds, binaryKinds] at hk

/-- A token that binds to the operand on its left is an operator, a call or an index. -/
theorem mem_binaryKinds {kind : Kind} (h : 0 < (Precedence.ofKind kind).level)
    (hlp : kind ≠ .lparen) (hlb : kind ≠ .lbracket) : kind ∈ binaryKinds := by
  cases kind <;> first | decide | exact absurd h (by decide) | exact absurd rfl hlp |
    exact absurd rfl hlb

theorem name_of_next {s : State} (hs : s.Spelled) (h : s.next.kind = .ident) :
    Token.IsName s.advance.current.literal.toList :=
  hs.advance.current h (by decide)

theorem printable_moreParameters : ∀ (n : Nat) {s : State} {ids : List Ident} {s' : State},
    s.Spelled → Gives (moreParameters n) s ids s' → ∀ id ∈ ids, Token.IsName id.name.toList
  | 0, _, _, _, _, h => absurd h (by simp [moreParameters])
  | n + 1, s, ids, s', hs, h => by
    rw [gives_moreParameters] at h
    split at h
    · obtain ⟨hident, others, h, rfl⟩ := h
      have hname := name_of_next hs.advance hident
      have hothers := printable_moreParameters n hs.advance.advance h
      simpa [Ident.ofToken, hname] using hothers
    · obtain ⟨-, -, rfl⟩ := h
      simp

theorem printable_parameters {n : Nat} {s : State} {ids : List Ident} {s' : State}
    (hs : s.Spelled) (h : Gives (parameters n) s ids s') :
    ∀ id ∈ ids, Token.IsName id.name.toList := by
  rw [gives_parameters] at h
  split at h
  · obtain ⟨-, rfl⟩ := h
    simp
  · obtain ⟨hident, others, h, rfl⟩ := h
    have hname := name_of_next hs hident
    have hothers := printable_moreParameters n hs.advance h
    simpa [Ident.ofToken, hname] using hothers

mutual

theorem printable_expression : ∀ (n : Nat) {p : Precedence} {s : State} {e : Expr} {s' : State},
    s.Spelled → Gives (expression n p) s e s' → e.Printable
  | 0, _, _, _, _, _, h => absurd h (by simp [expression])
  | n + 1, p, s, e, s', hs, h => by
    obtain ⟨left, s₁, h₁, h₂⟩ := gives_expression.mp h
    exact printable_operators n (hs.after (orderly_operand n) h₁) (printable_operand n hs h₁) h₂
termination_by structural n => n

theorem printable_operators : ∀ (n : Nat) {p : Precedence} {left : Expr} {s : State} {e : Expr}
    {s' : State}, s.Spelled → left.Printable → Gives (operators n p left) s e s' → e.Printable
  | 0, _, _, _, _, _, _, hl, h => by
    obtain ⟨rfl, -⟩ := gives_operators_zero.mp h
    exact hl
  | n + 1, p, left, s, e, s', hs, hl, h => by
    rw [gives_operators] at h
    split at h
    · next hlevel =>
      obtain ⟨longer, s₁, h₁, h₂⟩ := h
      have hpos : 0 < (Precedence.ofKind s.next.kind).level :=
        Nat.lt_of_le_of_lt (Nat.zero_le _) hlevel
      have hs₁ := hs.advance.after (orderly_operation n _ _) h₁
      exact printable_operators n hs₁ (printable_operation n hs.advance hpos hl h₁) h₂
    · obtain ⟨rfl, -⟩ := h
      exact hl
termination_by structural n => n

theorem printable_operation : ∀ (n : Nat) {left : Expr} {s : State} {e : Expr} {s' : State},
    s.Spelled → 0 < (Precedence.ofKind s.current.kind).level → left.Printable →
      Gives (operation n s.current left) s e s' → e.Printable
  | 0, _, _, _, _, _, _, _, h => absurd h (by simp [operation])
  | n + 1, left, s, e, s', hs, hpos, hl, h => by
    rw [gives_operation] at h
    split at h
    · obtain ⟨arguments, h, rfl⟩ := h
      rw [Expr.Printable]
      exact ⟨hl, printable_items n hs h⟩
    split at h
    · obtain ⟨key, s₁, h, -, -, rfl⟩ := h
      rw [Expr.Printable]
      exact ⟨hl, printable_expression n hs.advance h⟩
    · next hlp hlb =>
      obtain ⟨right, h, rfl⟩ := h
      have hmem := mem_binaryKinds hpos hlp hlb
      have hspells := hs.current rfl (ne_of_mem_of_not_mem hmem (by decide))
      rw [Expr.Printable, ofOperator_literal (.inr hmem) hspells]
      exact ⟨hmem, hl, printable_expression n hs.advance h⟩
termination_by structural n => n

theorem printable_operand : ∀ (n : Nat) {s : State} {e : Expr} {s' : State},
    s.Spelled → Gives (operand n) s e s' → e.Printable
  | 0, _, _, _, _, h => absurd h (by simp [operand])
  | n + 1, s, e, s', hs, h => by
    have hunary (hk : s.current.kind ∈ unaryKinds) {right : Expr}
        (h : Gives (expression n .unary) s.advance right s') :
        (Expr.unary s.current s.current.literal right).Printable := by
      have hspells := hs.current rfl (ne_of_mem_of_not_mem hk (by decide))
      rw [Expr.Printable, ofOperator_literal (.inl hk) hspells]
      exact ⟨hk, printable_expression n hs.advance h⟩
    rw [gives_operand] at h
    split at h
    · next hk =>
      obtain ⟨rfl, -⟩ := h
      rw [Expr.Printable]
      exact hs.current hk (by decide)
    · next hk =>
      obtain ⟨value, hv, rfl, -⟩ := h
      rw [Expr.Printable]
      exact ⟨hs.current hk (by decide), Integer.ofDigits?_eq_some_iff.mp hv⟩
    · next hk =>
      obtain ⟨rfl, -⟩ := h
      rw [Expr.Printable]
      exact ⟨hs.current hk (by decide), rfl⟩
    · next hk =>
      obtain ⟨rfl, -⟩ := h
      rw [Expr.Printable]
      exact hs.current hk (by decide)
    · obtain ⟨rfl, -⟩ := h
      rw [Expr.Printable]
      trivial
    · obtain ⟨rfl, -⟩ := h
      rw [Expr.Printable]
      trivial
    · next hk =>
      obtain ⟨right, h, rfl⟩ := h
      exact hunary (by simp [hk, unaryKinds]) h
    · next hk =>
      obtain ⟨right, h, rfl⟩ := h
      exact hunary (by simp [hk, unaryKinds]) h
    · obtain ⟨inner, s₁, h, -, -, rfl⟩ := h
      exact printable_expression n hs.advance h
    · obtain ⟨elements, h, rfl⟩ := h
      rw [Expr.Printable]
      exact printable_items n hs h
    · obtain ⟨entries, h, rfl⟩ := h
      rw [Expr.Printable]
      exact printable_pairs n hs h
    · exact printable_conditional n hs h
    · obtain ⟨-, names, s₁, h₁, -, body, h₂, rfl⟩ := h
      have hs₁ := hs.advance.after (orderly_parameters n) h₁
      rw [Expr.Printable]
      exact ⟨printable_parameters hs.advance h₁, printable_block n hs₁.advance h₂⟩
    · exact h.elim
termination_by structural n => n

theorem printable_conditional : ∀ (n : Nat) {token : Token} {s : State} {e : Expr} {s' : State},
    s.Spelled → Gives (conditional n token) s e s' → e.Printable
  | 0, _, _, _, _, _, h => absurd h (by simp [conditional])
  | n + 1, token, s, e, s', hs, h => by
    obtain ⟨-, c, s₁, h₁, -, -, b, s₂, h₂, h⟩ := gives_conditional.mp h
    have hs₁ := hs.advance.advance.after (orderly_expression n _) h₁
    have hs₂ := hs₁.advance.advance.after (orderly_block n) h₂
    have hc := printable_expression n hs.advance.advance h₁
    have hb := printable_block n hs₁.advance.advance h₂
    split at h
    · obtain ⟨-, a, h₃, rfl⟩ := h
      rw [Expr.Printable]
      exact ⟨hc, hb, printable_block n hs₂.advance.advance h₃⟩
    · obtain ⟨-, rfl⟩ := h
      rw [Expr.Printable]
      exact ⟨hc, hb⟩
termination_by structural n => n

theorem printable_items : ∀ (n : Nat) {close : Kind} {s : State} {es : List Expr} {s' : State},
    s.Spelled → Gives (items n close) s es s' → Expr.PrintableAll es
  | 0, _, _, _, _, _, h => absurd h (by simp [items])
  | n + 1, close, s, es, s', hs, h => by
    rw [gives_items] at h
    split at h
    · obtain ⟨-, rfl⟩ := h
      trivial
    · obtain ⟨first, s₁, h₁, others, h₂, rfl⟩ := h
      have hs₁ := hs.advance.after (orderly_expression n _) h₁
      exact ⟨printable_expression n hs.advance h₁, printable_moreItems n hs₁ h₂⟩
termination_by structural n => n

theorem printable_moreItems : ∀ (n : Nat) {close : Kind} {s : State} {es : List Expr}
    {s' : State}, s.Spelled → Gives (moreItems n close) s es s' → Expr.PrintableAll es
  | 0, _, _, _, _, _, h => absurd h (by simp [moreItems])
  | n + 1, close, s, es, s', hs, h => by
    rw [gives_moreItems] at h
    split at h
    · obtain ⟨first, s₁, h₁, others, h₂, rfl⟩ := h
      have hs₁ := hs.advance.advance.after (orderly_expression n _) h₁
      exact ⟨printable_expression n hs.advance.advance h₁, printable_moreItems n hs₁ h₂⟩
    · obtain ⟨-, -, rfl⟩ := h
      trivial
termination_by structural n => n

theorem printable_pairs : ∀ (n : Nat) {s : State} {ps : List (Expr × Expr)} {s' : State},
    s.Spelled → Gives (pairs n) s ps s' → Expr.PrintablePairs ps
  | 0, _, _, _, _, h => absurd h (by simp [pairs])
  | n + 1, s, ps, s', hs, h => by
    rw [gives_pairs] at h
    split at h
    · obtain ⟨-, rfl⟩ := h
      trivial
    · obtain ⟨key, s₁, h₁, -, value, s₂, h₂, h⟩ := h
      have hs₁ := hs.advance.after (orderly_expression n _) h₁
      have hs₂ := hs₁.advance.advance.after (orderly_expression n _) h₂
      have hk := printable_expression n hs.advance h₁
      have hv := printable_expression n hs₁.advance.advance h₂
      split at h
      · obtain ⟨others, h₃, rfl⟩ := h
        exact ⟨hk, hv, printable_pairs n hs₂ h₃⟩
      · obtain ⟨-, others, h₃, rfl⟩ := h
        exact ⟨hk, hv, printable_pairs n hs₂.advance h₃⟩
termination_by structural n => n

theorem printable_block : ∀ (n : Nat) {s : State} {b : Block} {s' : State},
    s.Spelled → Gives (block n) s b s' → b.Printable
  | 0, _, _, _, _, h => absurd h (by simp [block])
  | n + 1, s, b, s', hs, h => by
    obtain ⟨body, s₁, hbody, -, rfl, -⟩ := gives_block.mp h
    have henter : s.enter.Spelled := ⟨hs.eof, hs.ahead⟩
    have hall := printable_readAll n henter.advance
    rw [hbody] at hall
    exact hall
termination_by structural n => n

/-- The statements that are kept are printable, whatever was skipped between them. -/
theorem printable_readAll : ∀ (n : Nat) {s : State}, s.Spelled →
    Stmt.PrintableAll (readAll n s).1
  | 0, _, _ => trivial
  | n + 1, s, hs => by
    rw [readAll_succ]
    split
    · trivial
    have hreach := hs.of_reaches ((orderly_statement n).reaches s)
    rcases hst : exec (statement n) s with ⟨_ | first, s₁⟩ <;> rw [hst] at hreach
    · exact printable_readAll n (hreach.of_reaches (reaches_recover s₁))
    · exact ⟨printable_statement n hs hst, printable_readAll n hreach.advance⟩
termination_by structural n => n

theorem printable_statement : ∀ (n : Nat) {s : State} {st : Stmt} {s' : State},
    s.Spelled → Gives (statement n) s st s' → st.Printable
  | 0, _, _, _, _, h => absurd h (by simp [statement])
  | n + 1, s, st, s', hs, h => by
    rw [gives_statement] at h
    split at h
    · obtain ⟨hname, -, value, s₁, h, -, rfl⟩ := h
      rw [Stmt.Printable]
      exact ⟨name_of_next hs hname, printable_expression n hs.advance.advance.advance h⟩
    · split at h
      · obtain ⟨-, rfl⟩ := h
        rw [Stmt.Printable]
        trivial
      · obtain ⟨value, s₁, h, -, rfl⟩ := h
        rw [Stmt.Printable]
        exact printable_expression n hs.advance h
    · obtain ⟨value, s₁, h, -, rfl⟩ := h
      rw [Stmt.Printable]
      exact printable_expression n hs h
termination_by structural n => n

end

end Parser

/-- Whatever the parser makes of a text is printable. -/
theorem printable_parse (source : String) :
    Stmt.PrintableAll (parse source).program.statements := by
  have hstart : (State.ofStream (Token.scan source)).Spelled :=
    ⟨Token.kind_eof_scan source, fun _ => Token.spells_of_mem_scan⟩
  exact printable_readAll (State.ofStream (Token.scan source)).reach hstart

/-! ## Reading back -/

/-- A printable program is read back without diagnostics, with other tokens. -/
theorem parse_render_of_printable {p : Program} (hp : Stmt.PrintableAll p.statements) :
    (parse p.render).diagnostics = [] ∧ (parse p.render).program.bare = p.bare := by
  have hwords : (Token.scan p.render).tokens.map Token.word = _ := Program.words_render hp
  obtain ⟨q, hq, hbare⟩ := Program.derives_of_spelling hp hwords
  have hparse : parse p.render = ⟨q, []⟩ :=
    Grammar.parse_of_derives (Token.kind_eof_scan p.render) hq
  rw [hparse]
  exact ⟨rfl, hbare⟩

/-- Parse any text and print the program that it gives, partial or not. The printed text is
parsed without diagnostics, to the same program but for its tokens, and that program is
printed as the same text. -/
theorem parse_render (source : String) :
    (parse (parse source).program.render).diagnostics = [] ∧
      (parse (parse source).program.render).program.bare = (parse source).program.bare ∧
      (parse (parse source).program.render).program.render = (parse source).program.render := by
  obtain ⟨hnone, hbare⟩ := parse_render_of_printable (printable_parse source)
  exact ⟨hnone, hbare, Program.render_eq_of_bare_eq hbare⟩

end Monkey
