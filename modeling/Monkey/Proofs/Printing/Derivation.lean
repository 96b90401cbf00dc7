import Monkey.Proofs.Grammar
import Monkey.Proofs.Printing.Bare
import Monkey.Proofs.Printing.Spelling

/-!
# The grammar derives printed trees

Tokens with the words of a tree are derived by the grammar, and the tree of the
derivation has the same bare tree (`Program.derives_of_spelling`).

Every operation is printed in parentheses and is then a primary expression. A call
is not, but its callee is printed as one that can be called. So every expression
is printed as one of the stratum of calls and indexing, and the strata above it
play no part.
-/

namespace Monkey

open Grammar
open Token (Kind)

section Words

variable {t : Token} {kind : Kind} {w : List Char}

theorem Token.kind_eq_of_word (h : t.word = kind.word) : t.kind = kind :=
  congrArg Prod.fst h

theorem Token.kind_eq_of_word_mk (h : t.word = (kind, w)) : t.kind = kind :=
  congrArg Prod.fst h

theorem Token.literal_eq_of_word {text : String} (h : t.word = (kind, text.toList)) :
    t.literal = text :=
  String.toList_inj.mp (congrArg Prod.snd h)

/-- An operator is written with its text. -/
theorem text_ofOperator {operator : String} (h : Kind.ofOperator operator ≠ .illegal) :
    (Kind.ofOperator operator).text = operator.toList := by
  unfold Kind.ofOperator at h ⊢
  split at h <;> first | rfl | exact absurd rfl h

theorem Token.literal_eq_of_operator {operator : String}
    (hne : Kind.ofOperator operator ≠ .illegal) (h : t.word = (Kind.ofOperator operator).word) :
    t.literal = operator := by
  refine String.toList_inj.mp ?_
  rw [← text_ofOperator hne]
  exact congrArg Prod.snd h

end Words

/-- Calls and indexing are operands of every stratum with binary operators. -/
theorem exists_stratum {kind : Kind} (h : kind ∈ binaryKinds) :
    ∃ σ : Stratum, kind ∈ σ.operators ∧ σ.rank ≤ Stratum.postfixed.rank ∧
      σ.tighter.rank ≤ Stratum.postfixed.rank := by
  simp only [binaryKinds, List.mem_cons, List.not_mem_nil, or_false] at h
  rcases h with rfl | rfl | rfl | rfl | rfl | rfl | rfl | rfl
  · exact ⟨.equality, by decide⟩
  · exact ⟨.equality, by decide⟩
  · exact ⟨.relational, by decide⟩
  · exact ⟨.relational, by decide⟩
  · exact ⟨.additive, by decide⟩
  · exact ⟨.additive, by decide⟩
  · exact ⟨.multiplicative, by decide⟩
  · exact ⟨.multiplicative, by decide⟩

/-- Parentheses make a primary expression of any expression. -/
theorem postfixed_of_group {opening closing : Token} {ts : List Token} {e : Expr}
    (ho : opening.word = Kind.lparen.word) (h : Expression .equality ts e)
    (hc : closing.word = Kind.rparen.word) :
    Expression .postfixed (opening :: (ts ++ [closing])) e :=
  .lift (.group (Token.kind_eq_of_word ho) h (Token.kind_eq_of_word hc))

theorem names_of_words : ∀ (id : Ident) (ids : List Ident) (ts : List Token),
    ts.map Token.word = commaWords ((id :: ids).map fun id => [(.ident, id.name.toList)]) →
      ∃ ids', Names ts ids' ∧ ids'.map Ident.bare = (id :: ids).map Ident.bare
  | id, [], ts, h => by
    simp only [commaWords, List.map_cons, List.map_nil, List.intercalate_singleton,
      List.map_eq_cons_iff, List.map_eq_nil_iff] at h
    obtain ⟨t, _, rfl, ht, rfl⟩ := h
    refine ⟨_, .one (Token.kind_eq_of_word_mk ht), ?_⟩
    simp [Ident.bare, Ident.ofToken, Token.literal_eq_of_word ht]
  | id, id' :: ids, ts, h => by
    simp only [commaWords, List.map_cons, List.intercalate_cons_cons, List.cons_append,
      List.nil_append, List.map_eq_cons_iff] at h
    obtain ⟨t, _, rfl, ht, comma, us, rfl, hcomma, hus⟩ := h
    obtain ⟨ids', hids', hbare⟩ := names_of_words id' ids us (by simpa [commaWords] using hus)
    refine ⟨_, .cons (Token.kind_eq_of_word_mk ht) (Token.kind_eq_of_word hcomma) hids', ?_⟩
    simp [Ident.bare, Ident.ofToken, Token.literal_eq_of_word ht, ← hbare]

theorem parameters_of_words : ∀ (ids : List Ident) (ts : List Token),
    ts.map Token.word = commaWords (ids.map fun id => [(.ident, id.name.toList)]) →
      ∃ ids', Parameters ts ids' ∧ ids'.map Ident.bare = ids.map Ident.bare
  | [], ts, h => by
    simp only [commaWords, List.map_nil, List.intercalate_nil, List.map_eq_nil_iff] at h
    exact ⟨[], h ▸ .none, rfl⟩
  | id :: ids, ts, h => by
    obtain ⟨ids', hids', hbare⟩ := names_of_words id ids ts h
    exact ⟨ids', .some hids', hbare⟩

mutual

/-- Tokens with the words of an expression are an expression that differs from it in
nothing but its tokens. -/
theorem Expr.exists_of_spelling : ∀ (e : Expr), e.Printable → ∀ ts : List Token,
    ts.map Token.word = e.spelling → ∃ e', Expression .postfixed ts e' ∧ e'.bare = e.bare
  | .ident id, _, ts, h => by
    simp only [Expr.spelling, List.map_eq_cons_iff, List.map_eq_nil_iff] at h
    obtain ⟨t, _, rfl, ht, rfl⟩ := h
    refine ⟨_, .lift (.ident (Token.kind_eq_of_word_mk ht)), ?_⟩
    simp [Expr.bare, Ident.bare, Ident.ofToken, Token.literal_eq_of_word ht]
  | .boolean _ true, _, ts, h => by
    simp only [Expr.spelling, if_true, List.map_eq_cons_iff, List.map_eq_nil_iff] at h
    obtain ⟨t, _, rfl, ht, rfl⟩ := h
    exact ⟨_, .lift (.trueWord (Token.kind_eq_of_word ht)), rfl⟩
  | .boolean _ false, _, ts, h => by
    simp only [Expr.spelling, List.map_eq_cons_iff, List.map_eq_nil_iff] at h
    obtain ⟨t, _, rfl, ht, rfl⟩ := h
    exact ⟨_, .lift (.falseWord (Token.kind_eq_of_word ht)), rfl⟩
  | .integer token value, hp, ts, h => by
    rw [Expr.Printable] at hp
    obtain ⟨-, hle, rfl⟩ := hp
    simp only [Expr.spelling, List.map_eq_cons_iff, List.map_eq_nil_iff] at h
    obtain ⟨t, _, rfl, ht, rfl⟩ := h
    have hl := Token.literal_eq_of_word ht
    exact ⟨_, .lift (.integer (Token.kind_eq_of_word_mk ht) (hl ▸ hle)), by simp [Expr.bare, hl]⟩
  | .float token value, hp, ts, h => by
    rw [Expr.Printable] at hp
    obtain ⟨-, rfl⟩ := hp
    simp only [Expr.spelling, List.map_eq_cons_iff, List.map_eq_nil_iff] at h
    obtain ⟨t, _, rfl, ht, rfl⟩ := h
    have hl := Token.literal_eq_of_word ht
    exact ⟨_, .lift (.float (Token.kind_eq_of_word_mk ht)), by simp [Expr.bare, hl]⟩
  | .string _ v, _, ts, h => by
    simp only [Expr.spelling, List.map_eq_cons_iff, List.map_eq_nil_iff] at h
    obtain ⟨t, _, rfl, ht, rfl⟩ := h
    exact ⟨_, .lift (.string (Token.kind_eq_of_word_mk ht)),
      by simp [Expr.bare, Token.literal_eq_of_word ht]⟩
  | .array _ es, hp, ts, h => by
    rw [Expr.Printable] at hp
    simp only [Expr.spelling, List.map_eq_cons_iff, List.map_eq_append_iff,
      List.map_eq_nil_iff] at h
    obtain ⟨o, _, rfl, ho, us, _, rfl, hus, c, _, rfl, hc, rfl⟩ := h
    obtain ⟨es', hes', hbare⟩ := Expr.items_of_spelling es hp us hus
    exact ⟨_, .lift (.array (Token.kind_eq_of_word ho) hes' (Token.kind_eq_of_word hc)),
      by simp [Expr.bare, hbare]⟩
  | .hash _ ps, hp, ts, h => by
    rw [Expr.Printable] at hp
    simp only [Expr.spelling, List.map_eq_cons_iff, List.map_eq_append_iff,
      List.map_eq_nil_iff] at h
    obtain ⟨o, _, rfl, ho, us, _, rfl, hus, c, _, rfl, hc, rfl⟩ := h
    obtain ⟨ps', hps', hbare⟩ := Expr.pairs_of_spelling ps hp us hus
    exact ⟨_, .lift (.hash (Token.kind_eq_of_word ho) hps' (Token.kind_eq_of_word hc)),
      by simp [Expr.bare, hbare]⟩
  | .unary _ op e, hp, ts, h => by
    rw [Expr.Printable] at hp
    simp only [Expr.spelling, List.map_eq_cons_iff, List.map_eq_append_iff,
      List.map_eq_nil_iff] at h
    obtain ⟨o, _, rfl, ho, t, _, rfl, ht, us, _, rfl, hus, c, _, rfl, hc, rfl⟩ := h
    obtain ⟨e', he', hbare⟩ := e.exists_of_spelling hp.2 us hus
    have hne : Kind.ofOperator op ≠ .illegal := ne_of_mem_of_not_mem hp.1 (by decide)
    have hop : t.kind = .minus ∨ t.kind = .bang := by
      rw [Token.kind_eq_of_word ht]
      simpa [unaryKinds] using hp.1
    have hunary : Expression .equality (t :: us) _ :=
      (Expression.unary hop (he'.loosen (by decide))).loosen (by decide)
    exact ⟨_, postfixed_of_group ho hunary hc,
      by simp [Expr.bare, hbare, Token.literal_eq_of_operator hne ht]⟩
  | .binary _ op l r, hp, ts, h => by
    rw [Expr.Printable] at hp
    simp only [Expr.spelling, List.map_eq_cons_iff, List.map_eq_append_iff,
      List.map_eq_nil_iff] at h
    obtain ⟨o, _, rfl, ho, us, _, rfl, hus, t, _, rfl, ht, vs, _, rfl, hvs, c, _, rfl, hc, rfl⟩ := h
    obtain ⟨l', hl', hl⟩ := l.exists_of_spelling hp.2.1 us hus
    obtain ⟨r', hr', hr⟩ := r.exists_of_spelling hp.2.2 vs hvs
    have hne : Kind.ofOperator op ≠ .illegal := ne_of_mem_of_not_mem hp.1 (by decide)
    obtain ⟨σ, hσ, hleft, hright⟩ := exists_stratum hp.1
    rw [← Token.kind_eq_of_word ht] at hσ
    have hbinary : Expression .equality (us ++ t :: vs) _ :=
      (Expression.binary (hl'.loosen hleft) hσ (hr'.loosen hright)).loosen (Nat.zero_le _)
    refine ⟨.binary t t.literal l' r', ?_,
      by simp [Expr.bare, hl, hr, Token.literal_eq_of_operator hne ht]⟩
    simpa using postfixed_of_group ho hbinary hc
  | .conditional _ c b none, hp, ts, h => by
    rw [Expr.Printable] at hp
    simp only [Expr.spelling, List.map_eq_cons_iff, List.map_eq_append_iff] at h
    obtain ⟨kw, _, rfl, hkw, o, _, rfl, ho, us, _, rfl, hus, cl, vs, rfl, hcl, hvs⟩ := h
    obtain ⟨c', hc', hc⟩ := c.exists_of_spelling hp.1 us hus
    obtain ⟨b', hb', hb⟩ := b.braced_of_spelling hp.2 vs hvs
    exact ⟨_, .lift (.conditional (Token.kind_eq_of_word hkw) (Token.kind_eq_of_word ho)
      (hc'.loosen (by decide)) (Token.kind_eq_of_word hcl) hb'), by simp [Expr.bare, hc, hb]⟩
  | .conditional _ c b (some a), hp, ts, h => by
    rw [Expr.Printable] at hp
    simp only [Expr.spelling, List.map_eq_cons_iff, List.map_eq_append_iff] at h
    obtain ⟨kw, _, rfl, hkw, o, _, rfl, ho, us, _, rfl, hus, cl, _, rfl, hcl, vs, _, rfl, hvs,
      kwe, ws, rfl, hkwe, hws⟩ := h
    obtain ⟨c', hc', hc⟩ := c.exists_of_spelling hp.1 us hus
    obtain ⟨b', hb', hb⟩ := b.braced_of_spelling hp.2.1 vs hvs
    obtain ⟨a', ha', ha⟩ := a.braced_of_spelling hp.2.2 ws hws
    exact ⟨_, .lift (.alternative (Token.kind_eq_of_word hkw) (Token.kind_eq_of_word ho)
      (hc'.loosen (by decide)) (Token.kind_eq_of_word hcl) hb' (Token.kind_eq_of_word hkwe) ha'),
      by simp [Expr.bare, hc, hb, ha]⟩
  | .function _ ids b, hp, ts, h => by
    rw [Expr.Printable] at hp
    simp only [Expr.spelling, List.map_eq_cons_iff, List.map_eq_append_iff] at h
    obtain ⟨kw, _, rfl, hkw, o, _, rfl, ho, us, _, rfl, hus, cl, vs, rfl, hcl, hvs⟩ := h
    obtain ⟨ids', hids', hids⟩ := parameters_of_words ids us hus
    obtain ⟨b', hb', hb⟩ := b.braced_of_spelling hp.2 vs hvs
    exact ⟨_, .lift (.function (Token.kind_eq_of_word hkw) (Token.kind_eq_of_word ho) hids'
      (Token.kind_eq_of_word hcl) hb'), by simp [Expr.bare, hids, hb]⟩
  | .call _ f es, hp, ts, h => by
    rw [Expr.Printable] at hp
    simp only [Expr.spelling, List.map_eq_cons_iff, List.map_eq_append_iff,
      List.map_eq_nil_iff] at h
    obtain ⟨us, _, rfl, hus, o, _, rfl, ho, vs, _, rfl, hvs, c, _, rfl, hc, rfl⟩ := h
    obtain ⟨f', hf', hf⟩ := f.exists_of_spelling hp.1 us hus
    obtain ⟨es', hes', hes⟩ := Expr.items_of_spelling es hp.2 vs hvs
    exact ⟨_, .call hf' (Token.kind_eq_of_word ho) hes' (Token.kind_eq_of_word hc),
      by simp [Expr.bare, hf, hes]⟩
  | .index _ e k, hp, ts, h => by
    rw [Expr.Printable] at hp
    simp only [Expr.spelling, List.map_eq_cons_iff, List.map_eq_append_iff,
      List.map_eq_nil_iff] at h
    obtain ⟨o, _, rfl, ho, us, _, rfl, hus, ob, _, rfl, hob, vs, _, rfl, hvs, cb, _, rfl, hcb,
      c, _, rfl, hc, rfl⟩ := h
    obtain ⟨e', he', he⟩ := e.exists_of_spelling hp.1 us hus
    obtain ⟨k', hk', hk⟩ := k.exists_of_spelling hp.2 vs hvs
    have hindex : Expression .equality (us ++ ob :: (vs ++ [cb])) _ :=
      (Expression.index he' (Token.kind_eq_of_word hob) (hk'.loosen (by decide))
        (Token.kind_eq_of_word hcb)).loosen (by decide)
    refine ⟨.index ob e' k', ?_, by simp [Expr.bare, he, hk]⟩
    simpa using postfixed_of_group ho hindex hc
termination_by structural e => e

theorem Expr.items_of_spelling : ∀ (es : List Expr), Expr.PrintableAll es → ∀ ts : List Token,
    ts.map Token.word = commaWords (Expr.spellAll es) →
      ∃ es', Items ts es' ∧ Expr.bareAll es' = Expr.bareAll es
  | [], _, ts, h => by
    simp only [commaWords, Expr.spellAll, List.intercalate_nil, List.map_eq_nil_iff] at h
    exact ⟨[], h ▸ .none, rfl⟩
  | [e], hp, ts, h => by
    rw [Expr.PrintableAll] at hp
    simp only [commaWords, Expr.spellAll, List.intercalate_singleton] at h
    obtain ⟨e', he', he⟩ := e.exists_of_spelling hp.1 ts h
    exact ⟨[e'], .some (.one (he'.loosen (by decide))), by simp [Expr.bareAll, he]⟩
  | e :: f :: es, hp, ts, h => by
    rw [Expr.PrintableAll] at hp
    simp only [commaWords, Expr.spellAll, List.intercalate_cons_cons, List.append_assoc,
      List.cons_append, List.nil_append, List.map_eq_append_iff, List.map_eq_cons_iff] at h
    obtain ⟨us, _, rfl, hus, comma, vs, rfl, hcomma, hvs⟩ := h
    obtain ⟨e', he', he⟩ := e.exists_of_spelling hp.1 us hus
    obtain ⟨es', hes', hes⟩ := Expr.items_of_spelling (f :: es) hp.2 vs hvs
    have hseq : Sequence vs es' := by
      cases hes' with
      | none => simp [Expr.bareAll] at hes
      | some hs => exact hs
    exact ⟨e' :: es', .some (.cons (he'.loosen (by decide)) (Token.kind_eq_of_word hcomma) hseq),
      by simp [Expr.bareAll, he, hes]⟩
termination_by structural es => es

theorem Expr.pairs_of_spelling : ∀ (ps : List (Expr × Expr)), Expr.PrintablePairs ps →
    ∀ ts : List Token, ts.map Token.word = commaWords (Expr.spellPairs ps) →
      ∃ ps', Pairs ts ps' ∧ Expr.barePairs ps' = Expr.barePairs ps
  | [], _, ts, h => by
    simp only [commaWords, Expr.spellPairs, List.intercalate_nil, List.map_eq_nil_iff] at h
    exact ⟨[], h ▸ .none, rfl⟩
  | [(k, v)], hp, ts, h => by
    rw [Expr.PrintablePairs] at hp
    simp only [commaWords, Expr.spellPairs, List.intercalate_singleton, List.map_eq_append_iff,
      List.map_eq_cons_iff] at h
    obtain ⟨us, _, rfl, hus, colon, vs, rfl, hcolon, hvs⟩ := h
    obtain ⟨k', hk', hk⟩ := k.exists_of_spelling hp.1 us hus
    obtain ⟨v', hv', hv⟩ := v.exists_of_spelling hp.2.1 vs hvs
    exact ⟨[(k', v')], .last (hk'.loosen (by decide)) (Token.kind_eq_of_word hcolon)
      (hv'.loosen (by decide)), by simp [Expr.barePairs, hk, hv]⟩
  | (k, v) :: p :: ps, hp, ts, h => by
    rw [Expr.PrintablePairs] at hp
    simp only [commaWords, Expr.spellPairs, List.intercalate_cons_cons, List.append_assoc,
      List.cons_append, List.nil_append, List.map_eq_append_iff, List.map_eq_cons_iff] at h
    obtain ⟨us, _, rfl, hus, colon, _, rfl, hcolon, vs, _, rfl, hvs, comma, ws, rfl, hcomma,
      hws⟩ := h
    obtain ⟨k', hk', hk⟩ := k.exists_of_spelling hp.1 us hus
    obtain ⟨v', hv', hv⟩ := v.exists_of_spelling hp.2.1 vs hvs
    obtain ⟨ps', hps', hps⟩ := Expr.pairs_of_spelling (p :: ps) hp.2.2 ws hws
    exact ⟨(k', v') :: ps', .cons (hk'.loosen (by decide)) (Token.kind_eq_of_word hcolon)
      (hv'.loosen (by decide)) (Token.kind_eq_of_word hcomma) hps',
      by simp [Expr.barePairs, hk, hv, hps]⟩
termination_by structural ps => ps

/-- A printed statement ends with its semicolon, so anything may follow it. -/
theorem Stmt.statement_of_spelling : ∀ (s : Stmt), s.Printable → ∀ ts : List Token,
    ts.map Token.word = s.spelling → ∃ s', (∀ next, Statement next ts s') ∧ s'.bare = s.bare
  | .bind _ id e, hp, ts, h => by
    rw [Stmt.Printable] at hp
    simp only [Stmt.spelling, List.map_eq_cons_iff, List.map_eq_append_iff,
      List.map_eq_nil_iff] at h
    obtain ⟨kw, _, rfl, hkw, t, _, rfl, ht, a, _, rfl, ha, us, _, rfl, hus, c, _, rfl, hc,
      rfl⟩ := h
    obtain ⟨e', he', he⟩ := e.exists_of_spelling hp.2 us hus
    refine ⟨_, fun next => .bind (Token.kind_eq_of_word hkw) (Token.kind_eq_of_word_mk ht)
      (Token.kind_eq_of_word ha) (he'.loosen (by decide)) (.semicolon (Token.kind_eq_of_word hc)),
      ?_⟩
    simp [Stmt.bare, Ident.bare, Ident.ofToken, Token.literal_eq_of_word ht, he]
  | .ret _ (some e), hp, ts, h => by
    rw [Stmt.Printable] at hp
    simp only [Stmt.spelling, List.map_eq_cons_iff, List.map_eq_append_iff,
      List.map_eq_nil_iff] at h
    obtain ⟨kw, _, rfl, hkw, us, _, rfl, hus, c, _, rfl, hc, rfl⟩ := h
    obtain ⟨e', he', he⟩ := e.exists_of_spelling hp us hus
    exact ⟨_, fun next => .ret (Token.kind_eq_of_word hkw) (he'.loosen (by decide))
      (.semicolon (Token.kind_eq_of_word hc)), by simp [Stmt.bare, he]⟩
  | .ret _ none, _, ts, h => by
    simp only [Stmt.spelling, List.map_eq_cons_iff, List.map_eq_nil_iff] at h
    obtain ⟨kw, _, rfl, hkw, c, _, rfl, hc, rfl⟩ := h
    exact ⟨_, fun next => .bare (Token.kind_eq_of_word hkw)
      (.semicolon (Token.kind_eq_of_word hc)), rfl⟩
  | .expr _ e, hp, ts, h => by
    rw [Stmt.Printable] at hp
    simp only [Stmt.spelling, List.map_eq_cons_iff, List.map_eq_append_iff,
      List.map_eq_nil_iff] at h
    obtain ⟨us, _, rfl, hus, c, _, rfl, hc, rfl⟩ := h
    obtain ⟨e', he', he⟩ := e.exists_of_spelling hp us hus
    obtain ⟨t, us, rfl, -⟩ := he'.exists_cons
    exact ⟨.expr t e', fun next => .closed (he'.loosen (by decide)) (Token.kind_eq_of_word hc),
      by simp [Stmt.bare, he]⟩
termination_by structural s => s

theorem Stmt.statements_of_spelling : ∀ (ss : List Stmt), Stmt.PrintableAll ss →
    ∀ ts : List Token, ts.map Token.word = Stmt.spellAll ss →
      ∃ ss', (∀ next, Statements next ts ss') ∧ Stmt.bareAll ss' = Stmt.bareAll ss
  | [], _, ts, h => by
    simp only [Stmt.spellAll, List.map_eq_nil_iff] at h
    exact ⟨[], fun _ => h ▸ .nil, rfl⟩
  | s :: ss, hp, ts, h => by
    rw [Stmt.PrintableAll] at hp
    simp only [Stmt.spellAll, List.map_eq_append_iff] at h
    obtain ⟨us, vs, rfl, hus, hvs⟩ := h
    obtain ⟨s', hs', hs⟩ := s.statement_of_spelling hp.1 us hus
    obtain ⟨ss', hss', hss⟩ := Stmt.statements_of_spelling ss hp.2 vs hvs
    exact ⟨s' :: ss', fun next => .cons (hs' _) (hss' next), by simp [Stmt.bareAll, hs, hss]⟩
termination_by structural ss => ss

theorem Block.braced_of_spelling : ∀ (b : Block), b.Printable → ∀ ts : List Token,
    ts.map Token.word = b.spelling → ∃ b', Braced ts b' ∧ b'.bare = b.bare
  | .mk _ ss, hp, ts, h => by
    rw [Block.Printable] at hp
    simp only [Block.spelling, List.map_eq_cons_iff, List.map_eq_append_iff,
      List.map_eq_nil_iff] at h
    obtain ⟨o, _, rfl, ho, us, _, rfl, hus, c, _, rfl, hc, rfl⟩ := h
    obtain ⟨ss', hss', hss⟩ := Stmt.statements_of_spelling ss hp us hus
    exact ⟨_, .mk (Token.kind_eq_of_word ho) (hss' _) (Token.kind_eq_of_word hc),
      by simp [Block.bare, hss]⟩
termination_by structural b => b

end

/-- Tokens with the words of a program are derived, and the program that they are
differs from it in nothing but its tokens. -/
theorem Program.derives_of_spelling {p : Program} (hp : Stmt.PrintableAll p.statements)
    {ts : List Token} (h : ts.map Token.word = Stmt.spellAll p.statements) :
    ∃ q, Derives ts q ∧ q.bare = p.bare := by
  obtain ⟨ss, hss, hbare⟩ := Stmt.statements_of_spelling p.statements hp ts h
  exact ⟨⟨ss⟩, hss .eof, by simp [Program.bare, hbare]⟩

end Monkey
