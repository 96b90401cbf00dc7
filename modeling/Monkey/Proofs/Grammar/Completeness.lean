import Monkey.Proofs.Grammar
import Monkey.Proofs.Parser.Success

/-!
# What the grammar derives is read

The parser reads every sequence of tokens that the grammar derives, and gives the
tree of the derivation. The proof follows the derivation.

The parser does not know strata. It reads the leftmost operand and then one
operator after the other, as long as they bind tighter than the one it started
from. So `gives_of_expression` does not say what `Parser.expression` gives. It says
that reading an expression comes down to reading on after it, with the tree of the
expression as the left operand. If no operator follows that binds tighter, reading
on stops at once (`gives_operators_stop`).

`Stratum.entry` bounds the precedence at which an expression of a stratum is read
to its end, and `Stratum.follow` bounds the precedence of the token after it. The
bound on nesting that a parser needs is eight times the count of tokens.
-/

namespace Monkey.Grammar

open Monkey.Parser
open Token (Kind)

namespace Stratum

/-- The greatest precedence from which an expression of a stratum is read whole. -/
def entry : Stratum → Nat
  | equality => 0
  | relational => 1
  | additive => 2
  | multiplicative => 3
  | prefixed => 5
  | postfixed => 5
  | primary => 5

/-- The greatest precedence of a token that does not break up an expression before it. -/
def follow : Stratum → Nat
  | equality => 1
  | relational => 2
  | additive => 3
  | multiplicative => 4
  | prefixed => 5
  | postfixed => 7
  | primary => 7

theorem entry_le_tighter (σ : Stratum) : σ.entry ≤ σ.tighter.entry := by
  cases σ <;> decide

theorem follow_le_tighter (σ : Stratum) : σ.follow ≤ σ.tighter.follow := by
  cases σ <;> decide

/-- An operator of a stratum binds tighter than where the stratum is entered, and not
tighter than where its operands are. -/
theorem level_operator {σ : Stratum} {k : Kind} (hk : k ∈ σ.operators) :
    (Precedence.ofKind k).level = σ.follow ∧ σ.entry < σ.follow ∧
      σ.follow ≤ σ.tighter.entry ∧ k ≠ .lparen ∧ k ≠ .lbracket ∧ k ≠ .kwElse := by
  cases σ <;> simp [operators] at hk <;> rcases hk with rfl | rfl <;> decide

end Stratum

/-- Before `rest` an expression ends, as far as operators above the precedence `l` go. -/
structure Ends (l : Nat) (rest : List Token) : Prop where
  level : (Precedence.ofKind (firstKind rest .eof)).level ≤ l
  -- only a conditional would go on here, whatever the precedence
  kind : firstKind rest .eof ≠ .kwElse

theorem Ends.mono {l l' : Nat} {rest : List Token} (h : Ends l rest) (hl : l ≤ l') :
    Ends l' rest :=
  ⟨Nat.le_trans h.level hl, h.kind⟩

theorem ends_cons {l : Nat} {t : Token} {k : Kind} {rest : List Token} (ht : t.kind = k)
    (hk : (Precedence.ofKind k).level ≤ l ∧ k ≠ .kwElse) : Ends l (t :: rest) := by
  subst ht
  exact ⟨hk.1, hk.2⟩

theorem kind_next_on {s : State} (hz : s.eof.kind = .eof) (t : Token) (rest : List Token) :
    (s.on (t :: rest)).next.kind = firstKind rest .eof := by
  cases rest
  · exact hz
  · rfl

/-- Statements end at the end of the text and, in a block, at a closing brace. -/
theorem atEnd_on {s : State} (hz : s.eof.kind = .eof) {ts : List Token} :
    (s.on ts).atEnd = true ↔
      firstKind ts .eof = .eof ∨ (firstKind ts .eof = .rbrace ∧ 0 < s.openBlocks) := by
  cases ts <;> simp [State.atEnd, State.current, State.on, hz]

/-- Reading on stops before a token that does not bind tighter. -/
theorem gives_operators_stop {s : State} {p : Precedence} (e : Expr)
    (h : (Precedence.ofKind s.next.kind).level ≤ p.level) : ∀ n, Gives (operators n p e) s e s
  | 0 => gives_operators_zero.mpr ⟨rfl, rfl⟩
  | n + 1 => by
    rw [gives_operators, if_neg (Nat.not_lt.mpr h)]
    exact ⟨rfl, rfl⟩

/-! ## Names -/

/-- The names after a first one are read up to the closing parenthesis `c`. -/
theorem gives_of_names (s : State) (rest : List Token) {c : Token} (hc : c.kind = .rparen)
    {ts : List Token} {ids : List Ident} (h : Names ts ids) :
    ∀ {n : Nat}, ts.length ≤ n → ∃ t us others, ts = t :: us ∧ t.kind = .ident ∧
      ids = Ident.ofToken t :: others ∧
      Gives (moreParameters n) (s.on (t :: (us ++ c :: rest))) others (s.on (c :: rest)) := by
  induction h with
  | @one t ht =>
    intro n hn
    obtain ⟨n, rfl⟩ : ∃ m, n = m + 1 := ⟨n - 1, by simp at hn; omega⟩
    refine ⟨t, [], [], rfl, ht, rfl, ?_⟩
    rw [gives_moreParameters]
    simp [hc]
  | @cons t comma ts ids ht hcomma _ ih =>
    intro n hn
    obtain ⟨n, rfl⟩ : ∃ m, n = m + 1 := ⟨n - 1, by simp at hn; omega⟩
    obtain ⟨t', us, others, rfl, ht', rfl, hg⟩ := ih (n := n) (by simp at hn; omega)
    refine ⟨t, comma :: t' :: us, _, rfl, ht, rfl, ?_⟩
    rw [gives_moreParameters]
    simp [hcomma, ht', hg]

theorem gives_of_parameters (s : State) (t : Token) (rest : List Token) {c : Token}
    (hc : c.kind = .rparen) {ts : List Token} {ids : List Ident} (h : Parameters ts ids) {n : Nat}
    (hn : ts.length ≤ n) :
    Gives (parameters n) (s.on (t :: (ts ++ c :: rest))) ids (s.on (c :: rest)) := by
  rw [gives_parameters]
  cases h with
  | none => simp [hc]
  | some h =>
    obtain ⟨t', us, others, rfl, ht', rfl, hg⟩ := gives_of_names s rest hc h hn
    simp [ht', hg]

/-! ## Terminators -/

theorem gives_of_terminator {s : State} (hz : s.eof.kind = .eof) (t : Token)
    {us rest : List Token} (h : Terminator (firstKind rest .eof) us) :
    ∃ t', Gives terminator (s.on (t :: (us ++ rest))) () (s.on (t' :: rest)) := by
  simp only [gives_terminator]
  cases h with
  | @semicolon t' ht => exact ⟨t', by simp [ht]⟩
  | omitted hnext => exact ⟨t, by simp [kind_next_on hz, hnext]⟩

/-- An expression ends before a terminator. -/
theorem ends_terminator {us rest : List Token} (h : Terminator (firstKind rest .eof) us) :
    Ends 0 (us ++ rest) := by
  cases h with
  | semicolon ht => exact ends_cons ht (by decide)
  | omitted hnext => rcases hnext with h | h <;> exact ⟨by simp [h]; decide, by simp [h]⟩

theorem ends_of_not_continuing {rest : List Token} (h : firstKind rest .eof ∉ continuing)
    (hne : firstKind rest .eof ≠ .kwElse) : Ends 0 rest := by
  refine ⟨?_, hne⟩
  generalize firstKind rest .eof = k at h
  cases k <;> simp [continuing] at h <;> decide

/-! ## Trees -/

/-- Reading `us` before `rest` at the precedence `p` comes down to reading on after `e`,
at the cost of at most one step of nesting for each token. -/
def ReadsOn (s : State) (p : Precedence) (n : Nat) (us rest : List Token) (e : Expr) : Prop :=
  ∃ t m, n ≤ m + us.length ∧ ∀ {e' s'}, Gives (operators m p e) (s.on (t :: rest)) e' s' →
    Gives (expression n p) (s.on (us ++ rest)) e' s'

section

variable {s : State} {p : Precedence} {n : Nat} {us rest : List Token} {e : Expr} {t : Token}

theorem ReadsOn.stop (hz : s.eof.kind = .eof) (h : ReadsOn s p n us rest e)
    (hf : Ends p.level rest) :
    ∃ t, Gives (expression n p) (s.on (us ++ rest)) e (s.on (t :: rest)) := by
  obtain ⟨t, m, -, h⟩ := h
  refine ⟨t, h (gives_operators_stop e ?_ m)⟩
  rw [kind_next_on hz]
  exact hf.level

/-- An expression on its own, such as an argument or a condition, is read up to what ends
it. -/
theorem gives_alone (hz : s.eof.kind = .eof) (hf : Ends 0 rest) (hn : 8 * us.length ≤ n)
    (h : 0 ≤ Stratum.equality.entry → Ends Stratum.equality.follow rest → 8 * us.length ≤ n →
      ReadsOn s .lowest n us rest e) :
    ∃ t, Gives (expression n .lowest) (s.on (us ++ rest)) e (s.on (t :: rest)) := by
  have hread := h (Nat.zero_le _) (hf.mono (Nat.zero_le _)) hn
  exact hread.stop hz hf

theorem ReadsOn.of_operand (hn : us.length ≠ 0)
    (h : Gives (operand n) (s.on (us ++ rest)) e (s.on (t :: rest))) :
    ReadsOn s p (n + 1) us rest e :=
  ⟨t, n, by omega, fun h' => gives_expression.mpr ⟨e, _, h, h'⟩⟩

/-- A token that is an operand by itself. -/
theorem ReadsOn.of_token (h : Gives (operand n) (s.on (t :: rest)) e (s.on (t :: rest))) :
    ReadsOn s p (n + 1) [t] rest e :=
  .of_operand (by simp) h

/-- One more operator, call or index after an expression that is read already. -/
theorem ReadsOn.extend {op : Token} {vs : List Token} {longer : Expr}
    (h : ReadsOn s p n us (op :: (vs ++ rest)) e) (hn : us.length < n)
    (hp : p.level < (Precedence.ofKind op.kind).level)
    (hop : ∀ m, n ≤ m + us.length + 1 → ∃ t',
      Gives (operation m op e) (s.on (op :: (vs ++ rest))) longer (s.on (t' :: rest))) :
    ReadsOn s p n (us ++ op :: vs) rest longer := by
  obtain ⟨t, m, hm, h⟩ := h
  obtain ⟨m, rfl⟩ : ∃ k, m = k + 1 := ⟨m - 1, by omega⟩
  obtain ⟨t', ho⟩ := hop m (by omega)
  refine ⟨t', m, by simp; omega, fun {e' s'} h' => ?_⟩
  rw [List.append_assoc, List.cons_append]
  refine h (gives_operators.mpr ?_)
  rw [State.next_on, if_pos hp]
  exact ⟨longer, _, ho, h'⟩

/-- An expression is a statement, with the semicolon after it if there is one. -/
theorem gives_expr_statement {s₁ : State} (ht : t.kind ∈ starting)
    (h : Gives (expression n .lowest) (s.on (t :: us)) e s₁) :
    Gives (statement (n + 1)) (s.on (t :: us)) (.expr t e)
      (if s₁.next.kind = .semicolon then s₁.advance else s₁) := by
  refine (gives_statement_expr ?_ ?_).mpr ⟨e, s₁, h, rfl, rfl⟩
  · exact ne_of_mem_of_not_mem ht (by decide)
  · exact ne_of_mem_of_not_mem ht (by decide)

end

mutual

/-- Reading an expression comes down to reading on with its tree as the left operand. -/
theorem readsOn_of_expression {s : State} (hz : s.eof.kind = .eof) :
    ∀ {σ : Stratum} {us : List Token} {e : Expr}, Expression σ us e →
      ∀ (p : Precedence) (n : Nat) (rest : List Token), p.level ≤ σ.entry →
        Ends σ.follow rest → 8 * us.length ≤ n → ReadsOn s p n us rest e
  | σ, _, _, .lift h, p, n, rest, hp, hf, hn =>
    readsOn_of_expression hz h p n rest (Nat.le_trans hp σ.entry_le_tighter)
      (hf.mono σ.follow_le_tighter) hn
  | σ, _, _, @Expression.binary _ ls rs op l r hl hop hr, p, n, rest, hp, hf, hn => by
    obtain ⟨hlevel, hlt, hle, hnp, hnb, hne⟩ := Stratum.level_operator hop
    simp only [List.length_append, List.length_cons] at hn
    have hleft := readsOn_of_expression hz hl p n (op :: (rs ++ rest)) hp
      (ends_cons rfl ⟨Nat.le_of_eq hlevel, hne⟩) (by omega)
    refine hleft.extend (by omega) (by omega) fun m hm => ?_
    obtain ⟨m, rfl⟩ : ∃ k, m = k + 1 := ⟨m - 1, by omega⟩
    have hright := readsOn_of_expression hz hr (Precedence.ofKind op.kind) m rest (by omega)
      (hf.mono σ.follow_le_tighter) (by omega)
    obtain ⟨t, ht⟩ := hright.stop hz (hf.mono (Nat.le_of_eq hlevel.symm))
    refine ⟨t, gives_operation.mpr ?_⟩
    rw [if_neg hnp, if_neg hnb]
    exact ⟨r, ht, rfl⟩
  | _, _, _, @Expression.unary op ts e hop h, p, n, rest, hp, hf, hn => by
    simp only [List.length_cons] at hn
    obtain ⟨n, rfl⟩ : ∃ k, n = k + 3 := ⟨n - 3, by omega⟩
    have hright := readsOn_of_expression hz h .unary (n + 1) rest (Nat.le_refl _) hf (by omega)
    obtain ⟨t, ht⟩ := hright.stop hz hf
    refine .of_operand (t := t) (by simp) (gives_operand.mpr ?_)
    rcases hop with hop | hop <;> simp [hop, ht]
  | _, _, _, @Expression.call ts us o c f args hf' ho ha hc, p, n, rest, hp, hf, hn => by
    simp only [List.length_append, List.length_cons, List.length_nil] at hn
    have hleft := readsOn_of_expression hz hf' p n (o :: (us ++ [c] ++ rest)) hp
      (ends_cons ho (by decide)) (by omega)
    refine hleft.extend (by omega) (ho ▸ Nat.lt_of_le_of_lt hp (by decide)) fun m hm => ?_
    obtain ⟨m, rfl⟩ : ∃ k, m = k + 1 := ⟨m - 1, by omega⟩
    have hitems := gives_of_items hz o rest hc (by decide) ha m (by omega)
    exact ⟨c, gives_operation.mpr (by simpa [ho] using hitems)⟩
  | _, _, _, @Expression.index ts us o c e key he ho hk hc, p, n, rest, hp, hf, hn => by
    simp only [List.length_append, List.length_cons, List.length_nil] at hn
    have hleft := readsOn_of_expression hz he p n (o :: (us ++ [c] ++ rest)) hp
      (ends_cons ho (by decide)) (by omega)
    refine hleft.extend (by omega) (ho ▸ Nat.lt_of_le_of_lt hp (by decide)) fun m hm => ?_
    obtain ⟨m, rfl⟩ : ∃ k, m = k + 1 := ⟨m - 1, by omega⟩
    obtain ⟨t, ht⟩ := gives_alone hz (ends_cons hc (by decide)) (by omega)
      (readsOn_of_expression hz hk .lowest m (c :: rest))
    refine ⟨c, gives_operation.mpr ?_⟩
    rw [if_neg (by simp [ho]), if_pos ho]
    exact ⟨key, _, by simpa using ht, by simp [hc]⟩
  | _, _, _, .ident ht, p, n, rest, hp, hf, hn | _, _, _, .float ht, p, n, rest, hp, hf, hn
  | _, _, _, .string ht, p, n, rest, hp, hf, hn | _, _, _, .trueWord ht, p, n, rest, hp, hf, hn
  | _, _, _, .falseWord ht, p, n, rest, hp, hf, hn => by
    obtain ⟨n, rfl⟩ : ∃ k, n = k + 2 := ⟨n - 2, by simp at hn; omega⟩
    exact .of_token (gives_operand.mpr (by simp [ht]))
  | _, _, _, .integer ht hv, p, n, rest, hp, hf, hn => by
    obtain ⟨n, rfl⟩ : ∃ k, n = k + 2 := ⟨n - 2, by simp at hn; omega⟩
    have hvalue := Integer.ofDigits?_eq_some_iff.mpr ⟨hv, rfl⟩
    exact .of_token (gives_operand.mpr (by simp [ht, hvalue]))
  | _, _, _, @Expression.group o c ts e ho h hc, p, n, rest, hp, hf, hn => by
    simp only [List.length_append, List.length_cons, List.length_nil] at hn
    obtain ⟨n, rfl⟩ : ∃ k, n = k + 2 := ⟨n - 2, by omega⟩
    obtain ⟨t, ht⟩ := gives_alone hz (ends_cons hc (by decide)) (by omega)
      (readsOn_of_expression hz h .lowest n (c :: rest))
    refine .of_operand (t := c) (by simp) (gives_operand.mpr ?_)
    simp only [List.cons_append, State.current_on, ho]
    exact ⟨e, _, by simpa using ht, by simp [hc]⟩
  | _, _, _, @Expression.array o c ts es ho h hc, p, n, rest, hp, hf, hn => by
    simp only [List.length_append, List.length_cons, List.length_nil] at hn
    obtain ⟨n, rfl⟩ : ∃ k, n = k + 2 := ⟨n - 2, by omega⟩
    have hitems := gives_of_items hz o rest hc (by decide) h n (by omega)
    exact .of_operand (t := c) (by simp) (gives_operand.mpr (by simpa [ho] using hitems))
  | _, _, _, @Expression.hash o c ts ps ho h hc, p, n, rest, hp, hf, hn => by
    simp only [List.length_append, List.length_cons, List.length_nil] at hn
    obtain ⟨n, rfl⟩ : ∃ k, n = k + 2 := ⟨n - 2, by omega⟩
    have hpairs := gives_of_pairs hz rest hc h o n (by omega)
    exact .of_operand (t := c) (by simp) (gives_operand.mpr (by simpa [ho] using hpairs))
  | _, _, _, @Expression.conditional kw o c ts us e b hkw ho hc hcl hb, p, n, rest, hp, hf, hn => by
    simp only [List.length_append, List.length_cons] at hn
    obtain ⟨n, rfl⟩ : ∃ k, n = k + 3 := ⟨n - 3, by omega⟩
    obtain ⟨t₁, h₁⟩ := gives_alone hz (ends_cons hcl (by decide)) (by omega)
      (readsOn_of_expression hz hc .lowest n (c :: (us ++ rest)))
    obtain ⟨t₂, h₂⟩ := gives_of_braced hz hb n rest (by omega)
    obtain ⟨o', us', rfl, ho'⟩ := hb.exists_cons
    refine .of_operand (t := t₂) (by simp) (gives_operand.mpr ?_)
    simp only [List.cons_append, List.append_assoc, State.current_on, hkw]
    rw [gives_conditional]
    simp only [State.next_on, State.advance_on, ho, true_and]
    refine ⟨e, _, h₁, by simp [hcl], by simp [ho'], b, _, by simpa using h₂, ?_⟩
    rw [kind_next_on hz, if_neg hf.kind]
    exact ⟨rfl, rfl⟩
  | _, _, _, @Expression.alternative kw o c kwe ts us vs e b a hkw ho hc hcl hb hkwe ha, p, n, rest,
      hp, hf, hn => by
    simp only [List.length_append, List.length_cons] at hn
    obtain ⟨n, rfl⟩ : ∃ k, n = k + 3 := ⟨n - 3, by omega⟩
    obtain ⟨t₁, h₁⟩ := gives_alone hz (ends_cons hcl (by decide)) (by omega)
      (readsOn_of_expression hz hc .lowest n (c :: (us ++ kwe :: (vs ++ rest))))
    obtain ⟨t₂, h₂⟩ := gives_of_braced hz hb n (kwe :: (vs ++ rest)) (by omega)
    obtain ⟨t₃, h₃⟩ := gives_of_braced hz ha n rest (by omega)
    obtain ⟨o', us', rfl, ho'⟩ := hb.exists_cons
    obtain ⟨o'', vs', rfl, ho''⟩ := ha.exists_cons
    refine .of_operand (t := t₃) (by simp) (gives_operand.mpr ?_)
    simp only [List.cons_append, List.append_assoc, State.current_on, hkw]
    rw [gives_conditional]
    simp only [State.next_on, State.advance_on, ho, true_and]
    refine ⟨e, _, h₁, by simp [hcl], by simp [ho'], b, _, by simpa using h₂, ?_⟩
    rw [State.next_on, if_pos hkwe]
    exact ⟨by simp [ho''], a, by simpa using h₃, rfl⟩
  | _, _, _, @Expression.function kw o c ts us ids b hkw ho hps hcl hb, p, n, rest, hp, hf, hn => by
    simp only [List.length_append, List.length_cons] at hn
    obtain ⟨n, rfl⟩ : ∃ k, n = k + 2 := ⟨n - 2, by omega⟩
    have h₁ := gives_of_parameters s o (us ++ rest) hcl hps (n := n) (by omega)
    obtain ⟨t₂, h₂⟩ := gives_of_braced hz hb n rest (by omega)
    obtain ⟨o', us', rfl, ho'⟩ := hb.exists_cons
    refine .of_operand (t := t₂) (by simp) (gives_operand.mpr ?_)
    simp only [List.cons_append, List.append_assoc, State.current_on, hkw]
    exact ⟨by simp [ho], ids, _, by simpa using h₁, by simp [ho'], b, by simpa using h₂, rfl⟩
termination_by structural _ _ _ h => h

/-- An expression of a sequence is read, and then those after it, up to `c`. -/
theorem gives_of_sequence {s : State} (hz : s.eof.kind = .eof) (rest : List Token)
    {close : Kind} {c : Token} (hc : c.kind = close) (hclose : Ends 0 (c :: rest))
    (hcomma : close ≠ .comma) : ∀ {us : List Token} {es : List Expr}, Sequence us es →
      ∀ (n : Nat), 8 * (us.length + 1) ≤ n + 1 → ∃ e others s₁, es = e :: others ∧
        Gives (expression n .lowest) (s.on (us ++ c :: rest)) e s₁ ∧
        Gives (moreItems n close) s₁ others (s.on (c :: rest))
  | _, _, @Sequence.one ts e h, n, hn => by
    obtain ⟨t, ht⟩ := gives_alone hz hclose (by omega)
      (readsOn_of_expression hz h .lowest n (c :: rest))
    obtain ⟨n, rfl⟩ : ∃ k, n = k + 1 := ⟨n - 1, by omega⟩
    refine ⟨e, [], _, rfl, ht, gives_moreItems.mpr ?_⟩
    simp [hc, hcomma]
  | _, _, @Sequence.cons ts us comma e es h hcm hs, n, hn => by
    simp only [List.length_append, List.length_cons] at hn
    obtain ⟨t, ht⟩ := gives_alone hz (ends_cons hcm (by decide)) (by omega)
      (readsOn_of_expression hz h .lowest n (comma :: (us ++ c :: rest)))
    obtain ⟨n, rfl⟩ : ∃ k, n = k + 1 := ⟨n - 1, by omega⟩
    obtain ⟨e', others, s₁, rfl, he', ho⟩ :=
      gives_of_sequence hz rest hc hclose hcomma hs n (by omega)
    refine ⟨e, e' :: others, _, rfl, by simpa using ht, gives_moreItems.mpr ?_⟩
    rw [State.next_on, if_pos hcm]
    exact ⟨e', s₁, he', others, ho, rfl⟩
termination_by structural _ _ h => h

theorem gives_of_items {s : State} (hz : s.eof.kind = .eof) (t : Token) (rest : List Token)
    {close : Kind} {c : Token} (hc : c.kind = close)
    (hclose : close ∉ starting ∧ (Precedence.ofKind close).level = 0 ∧ close ≠ .kwElse ∧
      close ≠ .comma) :
    ∀ {us : List Token} {es : List Expr}, Items us es → ∀ (n : Nat), 8 * (us.length + 1) ≤ n →
      Gives (items n close) (s.on (t :: (us ++ c :: rest))) es (s.on (c :: rest))
  | _, _, .none, n, hn => by
    obtain ⟨n, rfl⟩ : ∃ k, n = k + 1 := ⟨n - 1, by omega⟩
    rw [gives_items]
    simp [hc]
  | _, _, @Items.some us es h, n, hn => by
    obtain ⟨n, rfl⟩ : ∃ k, n = k + 1 := ⟨n - 1, by omega⟩
    obtain ⟨hstart, hlevel, hne, hcm⟩ := hclose
    obtain ⟨e, others, s₁, rfl, he, ho⟩ := gives_of_sequence hz rest hc
      (ends_cons hc ⟨Nat.le_of_eq hlevel, hne⟩) hcm h n hn
    obtain ⟨t', us', rfl, ht'⟩ := h.exists_cons
    rw [gives_items]
    rw [List.cons_append, State.next_on, if_neg (ne_of_mem_of_not_mem ht' hstart)]
    exact ⟨e, s₁, he, others, ho, rfl⟩
termination_by structural _ _ h => h

theorem gives_of_pairs {s : State} (hz : s.eof.kind = .eof) (rest : List Token)
    {c : Token} (hc : c.kind = .rbrace) : ∀ {us : List Token} {ps : List (Expr × Expr)},
      Pairs us ps → ∀ (t : Token) (n : Nat), 8 * (us.length + 1) ≤ n →
      Gives (pairs n) (s.on (t :: (us ++ c :: rest))) ps (s.on (c :: rest))
  | _, _, .none, t, n, hn => by
    obtain ⟨n, rfl⟩ : ∃ k, n = k + 1 := ⟨n - 1, by omega⟩
    rw [gives_pairs]
    simp [hc]
  | _, _, @Pairs.last ks vs colon k v hk hcolon hv, t, n, hn => by
    simp only [List.length_append, List.length_cons] at hn
    obtain ⟨n, rfl⟩ : ∃ k, n = k + 2 := ⟨n - 2, by omega⟩
    obtain ⟨t₁, h₁⟩ := gives_alone hz (ends_cons hcolon (by decide)) (by omega)
      (readsOn_of_expression hz hk .lowest (n + 1) (colon :: (vs ++ c :: rest)))
    obtain ⟨t₂, h₂⟩ := gives_alone hz (ends_cons hc (by decide)) (by omega)
      (readsOn_of_expression hz hv .lowest (n + 1) (c :: rest))
    obtain ⟨t', ks', rfl, ht'⟩ := hk.exists_cons
    rw [gives_pairs, List.append_assoc, List.cons_append, List.cons_append, State.next_on,
      if_neg (ne_of_mem_of_not_mem ht' (by decide))]
    refine ⟨k, _, h₁, by simp [hcolon], v, _, h₂, ?_⟩
    rw [State.next_on, if_pos hc]
    refine ⟨[], gives_pairs.mpr ?_, rfl⟩
    simp [hc]
  | _, _, @Pairs.cons ks vs ts colon comma k v ps hk hcolon hv hcm hs, t, n, hn => by
    simp only [List.length_append, List.length_cons] at hn
    obtain ⟨n, rfl⟩ : ∃ k, n = k + 1 := ⟨n - 1, by omega⟩
    obtain ⟨t₁, h₁⟩ := gives_alone hz (ends_cons hcolon (by decide)) (by omega)
      (readsOn_of_expression hz hk .lowest n (colon :: (vs ++ comma :: (ts ++ c :: rest))))
    obtain ⟨t₂, h₂⟩ := gives_alone hz (ends_cons hcm (by decide)) (by omega)
      (readsOn_of_expression hz hv .lowest n (comma :: (ts ++ c :: rest)))
    have hothers := gives_of_pairs hz rest hc hs comma n (by omega)
    obtain ⟨t', ks', rfl, ht'⟩ := hk.exists_cons
    rw [gives_pairs, List.append_assoc, List.cons_append, List.cons_append, State.next_on,
      if_neg (ne_of_mem_of_not_mem ht' (by decide))]
    refine ⟨k, _, by simpa using h₁, by simp [hcolon], v, _, by simpa using h₂, ?_⟩
    rw [State.next_on, if_neg (by simp [hcm])]
    exact ⟨hcm, ps, hothers, rfl⟩
termination_by structural _ _ h => h

theorem gives_of_braced {s : State} (hz : s.eof.kind = .eof) :
    ∀ {us : List Token} {b : Block}, Braced us b → ∀ (n : Nat) (rest : List Token),
      8 * us.length ≤ n → ∃ t, Gives (block n) (s.on (us ++ rest)) b (s.on (t :: rest))
  | _, _, @Braced.mk o c ts ss ho h hc, n, rest, hn => by
    simp only [List.length_append, List.length_cons, List.length_nil] at hn
    obtain ⟨n, rfl⟩ : ∃ k, n = k + 1 := ⟨n - 1, by omega⟩
    have hss := readAll_of_statements (s := s.enter) hz h n (c :: rest) (by omega) (by simp [hc])
      (by simp [State.atEnd, hc, State.enter])
    refine ⟨c, gives_block.mpr ⟨ss, s.enter.on (c :: rest), ?_, by simp [hc], rfl, rfl⟩⟩
    simpa using hss
termination_by structural _ _ h => h

theorem gives_of_statement {s : State} (hz : s.eof.kind = .eof) :
    ∀ {k : Kind} {us : List Token} {st : Stmt}, Statement k us st →
      ∀ (n : Nat) (rest : List Token), 8 * us.length + 1 ≤ n → firstKind rest .eof = k →
        k ∉ [.kwElse, .semicolon] →
        ∃ t, Gives (statement n) (s.on (us ++ rest)) st (s.on (t :: rest))
  | _, _, _, @Statement.bind _ kw name assign ts us e hkw hname hassign h ht, n, rest, hn, hk, _ =>
    by
    subst hk
    simp only [List.length_append, List.length_cons] at hn
    obtain ⟨n, rfl⟩ : ∃ k, n = k + 1 := ⟨n - 1, by omega⟩
    have hends := ends_terminator ht
    obtain ⟨t₁, h₁⟩ := gives_alone hz hends (by omega)
      (readsOn_of_expression hz h .lowest n (us ++ rest))
    obtain ⟨t₂, h₂⟩ := gives_of_terminator hz t₁ ht
    refine ⟨t₂, gives_statement.mpr ?_⟩
    simp only [List.cons_append, List.append_assoc, State.current_on, hkw]
    exact ⟨by simp [hname], by simp [hassign], e, _, h₁, h₂, rfl⟩
  | _, _, _, @Statement.bare _ kw us hkw ht, n, rest, hn, hk, _ => by
    subst hk
    obtain ⟨n, rfl⟩ : ∃ k, n = k + 1 := ⟨n - 1, by omega⟩
    obtain ⟨t, h⟩ := gives_of_terminator hz kw ht
    refine ⟨t, gives_statement.mpr ?_⟩
    simp only [List.cons_append, State.current_on, hkw]
    rw [if_pos]
    · exact ⟨h, trivial⟩
    · cases ht with
      | semicolon ht => simp [ht]
      | omitted hnext => simpa [kind_next_on hz] using Or.inr hnext
  | _, _, _, @Statement.ret _ kw ts us e hkw h ht, n, rest, hn, hk, _ => by
    subst hk
    simp only [List.length_append, List.length_cons] at hn
    obtain ⟨n, rfl⟩ : ∃ k, n = k + 1 := ⟨n - 1, by omega⟩
    have hends := ends_terminator ht
    obtain ⟨t₁, h₁⟩ := gives_alone hz hends (by omega)
      (readsOn_of_expression hz h .lowest n (us ++ rest))
    obtain ⟨t₂, h₂⟩ := gives_of_terminator hz t₁ ht
    obtain ⟨t', ts', rfl, ht'⟩ := h.exists_cons
    refine ⟨t₂, gives_statement.mpr ?_⟩
    simp only [List.cons_append, List.append_assoc, State.current_on, hkw]
    rw [State.next_on, if_neg]
    · exact ⟨e, _, h₁, h₂, rfl⟩
    · rintro (h | h | h) <;> exact ne_of_mem_of_not_mem ht' (by decide) h
  | _, _, _, @Statement.closed _ t semicolon ts e h hs, n, rest, hn, hk, _ => by
    simp only [List.length_append, List.length_cons] at hn
    obtain ⟨n, rfl⟩ : ∃ k, n = k + 1 := ⟨n - 1, by omega⟩
    obtain ⟨t₁, h₁⟩ := gives_alone hz (ends_cons hs (by decide)) (by simp; omega)
      (readsOn_of_expression hz h .lowest n (semicolon :: rest))
    obtain ⟨t', ts', heq, ht'⟩ := h.exists_cons
    obtain ⟨rfl, rfl⟩ := List.cons.inj heq
    have hst := gives_expr_statement ht' h₁
    rw [State.next_on, if_pos hs] at hst
    exact ⟨semicolon, by simpa using hst⟩
  | _, _, _, @Statement.unclosed _ t ts e h hnext, n, rest, hn, hk, hne => by
    subst hk
    obtain ⟨n, rfl⟩ : ∃ k, n = k + 1 := ⟨n - 1, by omega⟩
    simp only [List.mem_cons, List.not_mem_nil, or_false, not_or] at hne
    have hends := ends_of_not_continuing hnext hne.1
    obtain ⟨t₁, h₁⟩ := gives_alone hz hends (by omega)
      (readsOn_of_expression hz h .lowest n rest)
    obtain ⟨t', ts', heq, ht'⟩ := h.exists_cons
    obtain ⟨rfl, rfl⟩ := List.cons.inj heq
    have hst := gives_expr_statement ht' h₁
    rw [kind_next_on hz, if_neg hne.2] at hst
    exact ⟨t₁, hst⟩
termination_by structural _ _ _ h => h

/-- Statements are read up to a token that ends them. -/
theorem readAll_of_statements {s : State} (hz : s.eof.kind = .eof) :
    ∀ {k : Kind} {us : List Token} {ss : List Stmt}, Statements k us ss →
      ∀ (n : Nat) (rest : List Token), 8 * us.length + 2 ≤ n → firstKind rest .eof = k →
        (s.on rest).atEnd = true → readAll n (s.on (us ++ rest)) = (ss, s.on rest)
  | _, _, _, .nil, n, rest, hn, hk, hend => by
    obtain ⟨n, rfl⟩ : ∃ k, n = k + 1 := ⟨n - 1, by omega⟩
    rw [List.nil_append, readAll_succ, if_pos hend]
  | k, _, _, @Statements.cons _ ts us st ss h hs, n, rest, hn, hk, hend => by
    simp only [List.length_append] at hn
    obtain ⟨n, rfl⟩ : ∃ k, n = k + 1 := ⟨n - 1, by omega⟩
    have hkend : k = .eof ∨ k = .rbrace := by
      rw [atEnd_on hz, hk] at hend
      exact hend.imp_right And.left
    have hnext : firstKind us k ∉ [.kwElse, .semicolon] := by
      have hmem := hs.firstKind_mem
      rcases hkend with rfl | rfl <;> intro h <;> revert hmem <;>
        simp only [List.mem_cons, List.not_mem_nil, or_false] at h <;> rcases h with h | h <;>
        rw [h] <;> decide
    obtain ⟨t, ht⟩ := gives_of_statement hz h n (us ++ rest) (by omega)
      (by rw [← hk]; cases us <;> rfl) hnext
    obtain ⟨t', ts', rfl, ht'⟩ := h.exists_cons
    have hrest := readAll_of_statements hz hs n rest (by simp at hn; omega) hk hend
    have hstart : ¬(s.on (t' :: ts' ++ us ++ rest)).atEnd = true := by
      rw [List.append_assoc, List.cons_append, atEnd_on hz]
      rintro (h | ⟨h, -⟩) <;> exact ne_of_mem_of_not_mem ht' (by decide) h
    rw [readAll_succ, if_neg hstart, List.append_assoc, ht]
    simp [hrest]
termination_by structural _ _ _ h => h

end

/-- A stream whose tokens the grammar derives is parsed to the tree of the derivation. -/
theorem parse_of_derives {stream : TokenStream} (hz : stream.eof.kind = .eof) {p : Program}
    (h : Derives stream.tokens p) : stream.parse = ⟨p, []⟩ := by
  have hread := readAll_of_statements (s := State.ofStream stream) hz h
    (State.ofStream stream).reach [] (by simp [State.reach, State.ofStream]; omega) rfl
    ((atEnd_on hz).mpr (Or.inl rfl))
  rw [List.append_nil] at hread
  have hrun : (statements (State.ofStream stream).reach).run (State.ofStream stream) =
      (p.statements, (State.ofStream stream).on []) := hread
  simp only [TokenStream.parse, hrun]
  rfl

end Monkey.Grammar
