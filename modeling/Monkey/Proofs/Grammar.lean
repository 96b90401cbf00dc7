import Monkey.Number.Digits
import Monkey.Number.Binary64
import Monkey.Tree

/-!
# The grammar

Which token sequences are programs, and which tree a program has. Expressions
stand in strata, the loosest first: equality, relational, additive and
multiplicative operators, all of them left associative, then operators before
their operand, then calls and indexing, then primary expressions.

A statement is read with the kind of the token after it, because a semicolon may
be left out only before some tokens. The end of the text counts as the kind
`Token.Kind.eof`. In a block every statement is followed by the next one or by the
closing brace, and in a program by the next one or by the end (`Statements`).

`Expression.loosen` moves an expression to a looser stratum, and
`Expression.exists_cons` says with which tokens an expression can start.
-/

namespace Monkey.Grammar

open Token (Kind)

/-- A layer of expressions, the loosest first. -/
inductive Stratum where
  | equality
  | relational
  | additive
  | multiplicative
  | prefixed
  | postfixed
  | primary
deriving DecidableEq, Repr

namespace Stratum

/-- The stratum that the operands of a stratum are in. -/
def tighter : Stratum → Stratum
  | equality => relational
  | relational => additive
  | additive => multiplicative
  | multiplicative => prefixed
  | prefixed => postfixed
  | postfixed => primary
  | primary => primary

/-- The operators that stand between two operands. -/
def operators : Stratum → List Kind
  | equality => [.eq, .notEq]
  | relational => [.lt, .gt]
  | additive => [.plus, .minus]
  | multiplicative => [.asterisk, .slash]
  | _ => []

/-- Position in the order of strata. -/
def rank : Stratum → Nat
  | equality => 0
  | relational => 1
  | additive => 2
  | multiplicative => 3
  | prefixed => 4
  | postfixed => 5
  | primary => 6

end Stratum

/-- The tokens that would go on with an expression that stands before them. -/
def continuing : List Kind :=
  [.lparen, .lbracket, .plus, .minus, .asterisk, .slash, .lt, .gt, .eq, .notEq]

/-- Kind of the first of some tokens, or `next` if there are none. -/
def firstKind (ts : List Token) (next : Kind) : Kind :=
  match ts with
  | [] => next
  | t :: _ => t.kind

@[simp] theorem firstKind_nil (next : Kind) : firstKind [] next = next := rfl

@[simp] theorem firstKind_cons (t : Token) (ts : List Token) (next : Kind) :
    firstKind (t :: ts) next = t.kind := rfl

theorem firstKind_append (ts us : List Token) (next : Kind) :
    firstKind (ts ++ us) next = firstKind ts (firstKind us next) := by
  cases ts <;> rfl

/-- What ends a `let` or a `return` that is followed by a token of kind `next`: a
semicolon, or nothing before a closing brace and at the end of the text. -/
inductive Terminator (next : Kind) : List Token → Prop
  | semicolon {t : Token} (ht : t.kind = .semicolon) : Terminator next [t]
  | omitted (hnext : next = .rbrace ∨ next = .eof) : Terminator next []

/-- Names with commas between them, at least one. -/
inductive Names : List Token → List Ident → Prop
  | one {t : Token} (ht : t.kind = .ident) : Names [t] [Ident.ofToken t]
  | cons {t comma : Token} {ts : List Token} {ids : List Ident} (ht : t.kind = .ident)
      (hcomma : comma.kind = .comma) (h : Names ts ids) :
      Names (t :: comma :: ts) (Ident.ofToken t :: ids)

/-- The parameters of a function. -/
inductive Parameters : List Token → List Ident → Prop
  | none : Parameters [] []
  | some {ts : List Token} {ids : List Ident} (h : Names ts ids) : Parameters ts ids

mutual

/-- `Expression σ ts e`: the tokens `ts` are an expression of the stratum `σ` with
the tree `e`. -/
inductive Expression : Stratum → List Token → Expr → Prop
  | lift {σ : Stratum} {ts : List Token} {e : Expr} (h : Expression σ.tighter ts e) :
      Expression σ ts e
  | binary {σ : Stratum} {ls rs : List Token} {op : Token} {l r : Expr}
      (hl : Expression σ ls l) (hop : op.kind ∈ σ.operators) (hr : Expression σ.tighter rs r) :
      Expression σ (ls ++ op :: rs) (.binary op op.literal l r)
  | unary {op : Token} {ts : List Token} {e : Expr} (hop : op.kind = .minus ∨ op.kind = .bang)
      (h : Expression .prefixed ts e) :
      Expression .prefixed (op :: ts) (.unary op op.literal e)
  | call {ts us : List Token} {opening closing : Token} {f : Expr} {args : List Expr}
      (hf : Expression .postfixed ts f) (ho : opening.kind = .lparen) (ha : Items us args)
      (hc : closing.kind = .rparen) :
      Expression .postfixed (ts ++ opening :: (us ++ [closing])) (.call opening f args)
  | index {ts us : List Token} {opening closing : Token} {e key : Expr}
      (he : Expression .postfixed ts e) (ho : opening.kind = .lbracket)
      (hk : Expression .equality us key) (hc : closing.kind = .rbracket) :
      Expression .postfixed (ts ++ opening :: (us ++ [closing])) (.index opening e key)
  | ident {t : Token} (ht : t.kind = .ident) :
      Expression .primary [t] (.ident (Ident.ofToken t))
  | integer {t : Token} (ht : t.kind = .int)
      (hv : digitsValue t.literal.toList ≤ 0x7fffffffffffffff) :
      Expression .primary [t] (.integer t (Int64.ofInt (digitsValue t.literal.toList)))
  | float {t : Token} (ht : t.kind = .float) :
      Expression .primary [t] (.float t (Binary64.ofDecimal t.literal))
  | string {t : Token} (ht : t.kind = .string) :
      Expression .primary [t] (.string t t.literal)
  | trueWord {t : Token} (ht : t.kind = .kwTrue) :
      Expression .primary [t] (.boolean t true)
  | falseWord {t : Token} (ht : t.kind = .kwFalse) :
      Expression .primary [t] (.boolean t false)
  | group {opening closing : Token} {ts : List Token} {e : Expr} (ho : opening.kind = .lparen)
      (h : Expression .equality ts e) (hc : closing.kind = .rparen) :
      Expression .primary (opening :: (ts ++ [closing])) e
  | array {opening closing : Token} {ts : List Token} {es : List Expr}
      (ho : opening.kind = .lbracket) (h : Items ts es) (hc : closing.kind = .rbracket) :
      Expression .primary (opening :: (ts ++ [closing])) (.array opening es)
  | hash {opening closing : Token} {ts : List Token} {ps : List (Expr × Expr)}
      (ho : opening.kind = .lbrace) (h : Pairs ts ps) (hc : closing.kind = .rbrace) :
      Expression .primary (opening :: (ts ++ [closing])) (.hash opening ps)
  | conditional {kw opening closing : Token} {ts us : List Token} {c : Expr} {b : Block}
      (hkw : kw.kind = .kwIf) (ho : opening.kind = .lparen) (hc : Expression .equality ts c)
      (hcl : closing.kind = .rparen) (hb : Braced us b) :
      Expression .primary (kw :: opening :: (ts ++ closing :: us)) (.conditional kw c b none)
  | alternative {kw opening closing kwe : Token} {ts us vs : List Token} {c : Expr} {b a : Block}
      (hkw : kw.kind = .kwIf) (ho : opening.kind = .lparen) (hc : Expression .equality ts c)
      (hcl : closing.kind = .rparen) (hb : Braced us b) (hkwe : kwe.kind = .kwElse)
      (ha : Braced vs a) :
      Expression .primary (kw :: opening :: (ts ++ closing :: (us ++ kwe :: vs)))
        (.conditional kw c b (some a))
  | function {kw opening closing : Token} {ts us : List Token} {ids : List Ident} {b : Block}
      (hkw : kw.kind = .kwFn) (ho : opening.kind = .lparen) (hp : Parameters ts ids)
      (hcl : closing.kind = .rparen) (hb : Braced us b) :
      Expression .primary (kw :: opening :: (ts ++ closing :: us)) (.function kw ids b)

/-- Expressions with commas between them, at least one. -/
inductive Sequence : List Token → List Expr → Prop
  | one {ts : List Token} {e : Expr} (h : Expression .equality ts e) : Sequence ts [e]
  | cons {ts us : List Token} {comma : Token} {e : Expr} {es : List Expr}
      (h : Expression .equality ts e) (hcomma : comma.kind = .comma) (hs : Sequence us es) :
      Sequence (ts ++ comma :: us) (e :: es)

/-- The elements of an array or the arguments of a call. -/
inductive Items : List Token → List Expr → Prop
  | none : Items [] []
  | some {ts : List Token} {es : List Expr} (h : Sequence ts es) : Items ts es

/-- The pairs of a hash. A comma may follow the last one. -/
inductive Pairs : List Token → List (Expr × Expr) → Prop
  | none : Pairs [] []
  | last {ks vs : List Token} {colon : Token} {k v : Expr} (hk : Expression .equality ks k)
      (hcolon : colon.kind = .colon) (hv : Expression .equality vs v) :
      Pairs (ks ++ colon :: vs) [(k, v)]
  | cons {ks vs ts : List Token} {colon comma : Token} {k v : Expr} {ps : List (Expr × Expr)}
      (hk : Expression .equality ks k) (hcolon : colon.kind = .colon)
      (hv : Expression .equality vs v) (hcomma : comma.kind = .comma) (hs : Pairs ts ps) :
      Pairs (ks ++ colon :: (vs ++ comma :: ts)) ((k, v) :: ps)

/-- Statements in braces. -/
inductive Braced : List Token → Block → Prop
  | mk {opening closing : Token} {ts : List Token} {ss : List Stmt}
      (ho : opening.kind = .lbrace) (h : Statements .rbrace ts ss) (hc : closing.kind = .rbrace) :
      Braced (opening :: (ts ++ [closing])) (.mk opening ss)

/-- A statement that is followed by a token of kind `next`. -/
inductive Statement : Kind → List Token → Stmt → Prop
  | bind {next : Kind} {kw name assign : Token} {ts us : List Token} {e : Expr}
      (hkw : kw.kind = .kwLet) (hname : name.kind = .ident) (hassign : assign.kind = .assign)
      (h : Expression .equality ts e) (ht : Terminator next us) :
      Statement next (kw :: name :: assign :: (ts ++ us)) (.bind kw (Ident.ofToken name) e)
  | bare {next : Kind} {kw : Token} {us : List Token} (hkw : kw.kind = .kwReturn)
      (ht : Terminator next us) : Statement next (kw :: us) (.ret kw Option.none)
  | ret {next : Kind} {kw : Token} {ts us : List Token} {e : Expr} (hkw : kw.kind = .kwReturn)
      (h : Expression .equality ts e) (ht : Terminator next us) :
      Statement next (kw :: (ts ++ us)) (.ret kw (some e))
  | closed {next : Kind} {t semicolon : Token} {ts : List Token} {e : Expr}
      (h : Expression .equality (t :: ts) e) (hs : semicolon.kind = .semicolon) :
      Statement next (t :: (ts ++ [semicolon])) (.expr t e)
  | unclosed {next : Kind} {t : Token} {ts : List Token} {e : Expr}
      (h : Expression .equality (t :: ts) e) (hnext : next ∉ continuing) :
      Statement next (t :: ts) (.expr t e)

/-- Statements that are followed by a token of kind `next`. -/
inductive Statements : Kind → List Token → List Stmt → Prop
  | nil {next : Kind} : Statements next [] []
  | cons {next : Kind} {ts us : List Token} {s : Stmt} {ss : List Stmt}
      (h : Statement (firstKind us next) ts s) (hs : Statements next us ss) :
      Statements next (ts ++ us) (s :: ss)

end

/-- The tokens of a program, without the end token, and the program's tree. -/
def Derives (ts : List Token) (p : Program) : Prop :=
  Statements .eof ts p.statements

/-! ## Moving between strata -/

/-- An expression of a stratum is one of every looser stratum. -/
theorem Expression.loosen {σ τ : Stratum} {ts : List Token} {e : Expr}
    (h : Expression τ ts e) (hr : σ.rank ≤ τ.rank) : Expression σ ts e := by
  -- one stratum at a time, so the induction is on how far apart they are
  induction hd : τ.rank - σ.rank generalizing σ with
  | zero =>
    have heq : σ = τ := by cases σ <;> cases τ <;> simp [Stratum.rank] at hr hd ⊢
    exact heq ▸ h
  | succ d ih =>
    refine .lift (ih ?_ ?_)
    · cases σ <;> cases τ <;> simp [Stratum.rank, Stratum.tighter] at hr hd ⊢
    · cases σ <;> cases τ <;> simp [Stratum.rank, Stratum.tighter] at hr hd ⊢ <;> omega

/-! ## First tokens -/

/-- The tokens with which an expression can start. -/
def starting : List Kind :=
  [.ident, .int, .float, .string, .kwTrue, .kwFalse, .minus, .bang, .lparen, .lbracket, .lbrace,
    .kwIf, .kwFn]

/-- An expression has a first token, and it is one that starts an expression. -/
theorem Expression.exists_cons : ∀ {σ : Stratum} {ts : List Token} {e : Expr},
    Expression σ ts e → ∃ t us, ts = t :: us ∧ t.kind ∈ starting
  | _, _, _, .lift h => h.exists_cons
  | _, _, _, .binary hl _ _ => by
    obtain ⟨t, us, rfl, ht⟩ := hl.exists_cons
    exact ⟨t, _, rfl, ht⟩
  | _, _, _, .call hf _ _ _ => by
    obtain ⟨t, us, rfl, ht⟩ := hf.exists_cons
    exact ⟨t, _, rfl, ht⟩
  | _, _, _, .index he _ _ _ => by
    obtain ⟨t, us, rfl, ht⟩ := he.exists_cons
    exact ⟨t, _, rfl, ht⟩
  | _, _, _, .unary (Or.inl hop) _ => ⟨_, _, rfl, by simp [hop, starting]⟩
  | _, _, _, .unary (Or.inr hop) _ => ⟨_, _, rfl, by simp [hop, starting]⟩
  | _, _, _, .ident ht | _, _, _, .integer ht _ | _, _, _, .float ht | _, _, _, .string ht
  | _, _, _, .trueWord ht | _, _, _, .falseWord ht | _, _, _, .group ht _ _
  | _, _, _, .array ht _ _ | _, _, _, .hash ht _ _ | _, _, _, .conditional ht _ _ _ _
  | _, _, _, .alternative ht _ _ _ _ _ _ | _, _, _, .function ht _ _ _ _ =>
    ⟨_, _, rfl, by simp [ht, starting]⟩
termination_by structural _ _ _ h => h

theorem Sequence.exists_cons {ts : List Token} {es : List Expr} (h : Sequence ts es) :
    ∃ t us, ts = t :: us ∧ t.kind ∈ starting := by
  cases h with
  | one h => exact h.exists_cons
  | cons h _ _ =>
    obtain ⟨t, us, rfl, ht⟩ := h.exists_cons
    exact ⟨t, _, rfl, ht⟩

theorem Braced.exists_cons {ts : List Token} {b : Block} (h : Braced ts b) :
    ∃ t us, ts = t :: us ∧ t.kind = .lbrace := by
  cases h with
  | mk ho _ _ => exact ⟨_, _, rfl, ho⟩

/-- The tokens with which a statement can start. -/
def opening : List Kind := .kwLet :: .kwReturn :: starting

/-- A statement starts with its keyword or with an expression. -/
theorem Statement.exists_cons {next : Kind} {ts : List Token} {st : Stmt}
    (h : Statement next ts st) : ∃ t us, ts = t :: us ∧ t.kind ∈ opening := by
  cases h with
  | bind hkw | bare hkw | ret hkw => exact ⟨_, _, rfl, by simp [hkw, opening]⟩
  | closed h | unclosed h =>
    obtain ⟨t, us, heq, ht⟩ := h.exists_cons
    obtain ⟨rfl, rfl⟩ := List.cons.inj heq
    exact ⟨_, _, rfl, by simp [ht, opening]⟩

/-- What follows a statement is another one, or what follows all of them. -/
theorem Statements.firstKind_mem {next : Kind} {ts : List Token} {ss : List Stmt}
    (h : Statements next ts ss) : firstKind ts next ∈ next :: opening := by
  cases h with
  | nil => simp
  | cons h _ =>
    obtain ⟨t, us, rfl, ht⟩ := h.exists_cons
    exact List.mem_cons_of_mem _ ht

end Monkey.Grammar
