import Monkey.Proofs.Grammar.Completeness
import Monkey.Proofs.Parser.Progress
import Monkey.Proofs.Scanning

/-!
# What is read without a diagnostic the grammar derives

A run that reports nothing has read tokens that the grammar derives, and the tree
it gives is the tree of a derivation. The proof is by induction on the bound on
nesting, which is also shown to be never used up: it stays above eight times the
count of tokens ahead.

The loop over operators keeps this in hand (`Extends`): the left operand is an
expression of a stratum that is tight enough for where the loop was entered, and
the token after it does not bind tighter than the operators of that stratum.

With the other direction, a text is parsed without diagnostics exactly if its
tokens are derived, and then to the one tree that they have (`accepts_iff_derives`).
-/

namespace Monkey.Grammar

open Monkey.Parser
open Token (Kind)

/-- Nothing has been reported between `s` and `s'`. -/
def Quiet (s s' : State) : Prop := s'.reported.length ≤ s.reported.length

/-- If nothing is reported up to the end of a run, nothing is before it. -/
theorem Quiet.before {α : Type} {s s₀ s₁ s' : State} (h : Quiet s s') {x : Parser α} {a : α}
    (hx : Orderly x) (hg : Gives x s₁ a s') (h₀ : s₁.reported = s₀.reported := by rfl) :
    Quiet s s₀ := by
  have hle := (hx.reaches_of_gives hg).length_reported_le
  rw [h₀] at hle
  exact Nat.le_trans hle h

theorem exists_cons_of_next {s : State} (hz : s.eof.kind = .eof) {t : Token} {ts : List Token}
    {k : Kind} (h : (s.on (t :: ts)).next.kind = k) (hk : k ≠ .eof) :
    ∃ c rest, ts = c :: rest ∧ c.kind = k := by
  rw [kind_next_on hz] at h
  cases ts with
  | nil => exact absurd h.symm hk
  | cons c rest => exact ⟨c, rest, rfl, h⟩

theorem Expression.length_pos {σ : Stratum} {ts : List Token} {e : Expr}
    (h : Expression σ ts e) : 0 < ts.length := by
  obtain ⟨t, us, rfl, -⟩ := h.exists_cons
  simp

/-! ## Names -/

/-- What `moreParameters` reads: nothing, or a comma and names. -/
theorem names_of_gives {s : State} (hz : s.eof.kind = .eof) :
    ∀ {n : Nat} {t : Token} {ts : List Token} {ids : List Ident} {s' : State},
      Gives (moreParameters n) (s.on (t :: ts)) ids s' → t.kind = .ident →
        ∃ us c rest, ts = us ++ c :: rest ∧ c.kind = .rparen ∧ s' = s.on (c :: rest) ∧
          Names (t :: us) (Ident.ofToken t :: ids)
  | 0, _, _, _, _, h, _ => absurd h (by simp [moreParameters])
  | n + 1, t, ts, ids, s', h, ht => by
    rw [gives_moreParameters] at h
    split at h
    · next hcomma =>
      obtain ⟨comma, ts, rfl, hc⟩ := exists_cons_of_next hz hcomma (by decide)
      obtain ⟨hident, others, h, rfl⟩ := h
      obtain ⟨name, ts, rfl, hname⟩ := exists_cons_of_next hz hident (by decide)
      obtain ⟨us, c, rest, rfl, hcl, rfl, hns⟩ := names_of_gives hz h hname
      exact ⟨comma :: name :: us, c, rest, rfl, hcl, rfl, .cons ht hc hns⟩
    · obtain ⟨hclose, rfl, rfl⟩ := h
      obtain ⟨c, rest, rfl, hc⟩ := exists_cons_of_next hz hclose (by decide)
      exact ⟨[], c, rest, rfl, hc, rfl, .one ht⟩

theorem parameters_of_gives {s : State} (hz : s.eof.kind = .eof) {n : Nat} {t : Token}
    {ts : List Token} {ids : List Ident} {s' : State}
    (h : Gives (parameters n) (s.on (t :: ts)) ids s') :
    ∃ us c rest, ts = us ++ c :: rest ∧ c.kind = .rparen ∧ s' = s.on (c :: rest) ∧
      Parameters us ids := by
  rw [gives_parameters] at h
  split at h
  · next hclose =>
    obtain ⟨rfl, rfl⟩ := h
    obtain ⟨c, rest, rfl, hc⟩ := exists_cons_of_next hz hclose (by decide)
    exact ⟨[], c, rest, rfl, hc, rfl, .none⟩
  · obtain ⟨hident, others, h, rfl⟩ := h
    obtain ⟨name, ts, rfl, hname⟩ := exists_cons_of_next hz hident (by decide)
    obtain ⟨us, c, rest, rfl, hcl, rfl, hns⟩ := names_of_gives hz h hname
    exact ⟨name :: us, c, rest, rfl, hcl, rfl, .some hns⟩

/-! ## Terminators -/

theorem terminator_of_gives {s : State} (hz : s.eof.kind = .eof) {t : Token} {ts : List Token}
    {s' : State} (h : Gives terminator (s.on (t :: ts)) () s') :
    ∃ us t' rest, ts = us ++ rest ∧ s' = s.on (t' :: rest) ∧
      Terminator (firstKind rest .eof) us := by
  rcases gives_terminator.mp h with ⟨hsemi, rfl⟩ | ⟨hnext, rfl⟩
  · obtain ⟨c, rest, rfl, hc⟩ := exists_cons_of_next hz hsemi (by decide)
    exact ⟨[c], c, rest, rfl, rfl, .semicolon hc⟩
  · rw [kind_next_on hz] at hnext
    exact ⟨[], t, ts, rfl, rfl, .omitted hnext⟩

/-! ## Operators -/

/-- The stratum of what is read from a precedence. -/
def stratumOf : Precedence → Stratum
  | .lowest => .equality
  | .equality => .relational
  | .comparison => .additive
  | .sum => .multiplicative
  | _ => .prefixed

/-- How tightly the token after an expression binds to it. -/
def followLevel (rest : List Token) : Nat :=
  (Precedence.ofKind (firstKind rest .eof)).level

theorem rank_stratumOf_le (p : Precedence) : (stratumOf p).rank ≤ p.level := by
  cases p <;> decide

theorem rank_stratumOf_le_prefixed (p : Precedence) :
    (stratumOf p).rank ≤ Stratum.prefixed.rank := by
  cases p <;> decide

theorem Stratum.le_rank_of_le_follow {τ : Stratum} {n : Nat} (h : n ≤ τ.follow) (hn : n ≤ 5) :
    n ≤ τ.rank + 1 := by
  cases τ <;> simp only [follow, rank] at h ⊢ <;> omega

theorem level_le_seven (k : Kind) : (Precedence.ofKind k).level ≤ 7 := by
  cases k <;> decide

theorem not_continuing_of_followLevel {rest : List Token} (h : followLevel rest ≤ 0) :
    firstKind rest .eof ∉ continuing := by
  unfold followLevel at h
  generalize firstKind rest .eof = k at h
  revert h
  cases k <;> decide

/-- The tokens `us` before `rest` are an expression that the loop entered from `p` can
extend: no looser than it may be, and followed by nothing that binds into it. -/
def Extends (p : Precedence) (us rest : List Token) (e : Expr) : Prop :=
  ∃ τ, Expression τ us e ∧ (stratumOf p).rank ≤ τ.rank ∧ followLevel rest ≤ τ.follow

theorem Extends.of_primary {p : Precedence} {us rest : List Token} {e : Expr}
    (h : Expression .primary us e) : Extends p us rest e :=
  ⟨.primary, h, Nat.le_trans (rank_stratumOf_le_prefixed p) (by decide), level_le_seven _⟩

theorem Extends.of_postfixed {p : Precedence} {us rest : List Token} {e : Expr}
    (h : Expression .postfixed us e) : Extends p us rest e :=
  ⟨.postfixed, h, Nat.le_trans (rank_stratumOf_le_prefixed p) (by decide), level_le_seven _⟩

/-- The loop ends with an expression of the stratum it was entered for. -/
theorem Extends.expression {p : Precedence} {us rest : List Token} {e : Expr}
    (h : Extends p us rest e) : Expression (stratumOf p) us e := by
  obtain ⟨τ, he, hr, -⟩ := h
  exact he.loosen hr

/-- A call or an index can only follow an expression that is tight enough for it. -/
theorem Extends.postfixed {p : Precedence} {us rest : List Token} {e : Expr}
    (h : Extends p us rest e) (hl : 5 < followLevel rest) : Expression .postfixed us e := by
  obtain ⟨τ, he, -, hf⟩ := h
  refine he.loosen ?_
  cases τ <;> simp only [Stratum.follow, Stratum.rank] at hf ⊢ <;> omega

/-- An operator between operands has a stratum, which holds what stands before it. -/
theorem Extends.operator {p : Precedence} {us rest : List Token} {e : Expr} {op : Token}
    (h : Extends p us (op :: rest) e) (hp : p.level < (Precedence.ofKind op.kind).level)
    (hl : op.kind ≠ .lparen) (hb : op.kind ≠ .lbracket) :
    ∃ σ, Expression σ us e ∧ op.kind ∈ σ.operators ∧ (stratumOf p).rank ≤ σ.rank ∧
      σ.follow = (Precedence.ofKind op.kind).level ∧
      σ.tighter = stratumOf (Precedence.ofKind op.kind) := by
  obtain ⟨τ, he, -, hf⟩ := h
  have hσ : ∃ σ : Stratum, op.kind ∈ σ.operators ∧
      σ.follow = (Precedence.ofKind op.kind).level ∧
      σ.tighter = stratumOf (Precedence.ofKind op.kind) ∧ σ.rank + 1 = σ.follow ∧
      σ.follow ≤ 5 := by
    cases hk : op.kind
    case eq | notEq => exact ⟨.equality, by decide⟩
    case lt | gt => exact ⟨.relational, by decide⟩
    case plus | minus => exact ⟨.additive, by decide⟩
    case asterisk | slash => exact ⟨.multiplicative, by decide⟩
    case lparen => exact absurd hk hl
    case lbracket => exact absurd hk hb
    all_goals simp [hk, Precedence.ofKind, Precedence.level] at hp
  obtain ⟨σ, hmem, hfollow, htight, hrank, hle⟩ := hσ
  have hp' := rank_stratumOf_le p
  simp only [followLevel, firstKind_cons, ← hfollow] at hf
  have hτ := Stratum.le_rank_of_le_follow hf hle
  exact ⟨σ, he.loosen (by omega), hmem, by omega, hfollow, htight⟩

/-! ## Trees -/

/-- From `s` with `ts` ahead a run has read some of `ts`, and what it has read and what
is left satisfy `P`. It stands on the last token it has read. -/
def ReadsUpTo (s : State) (ts : List Token) (s' : State) (P : List Token → List Token → Prop) :
    Prop :=
  ∃ us t rest, ts = us ++ rest ∧ s' = s.on (t :: rest) ∧ P us rest

mutual

theorem expression_of_gives {s : State} (hz : s.eof.kind = .eof) :
    ∀ (n : Nat) {p : Precedence} {ts : List Token} {e : Expr} {s' : State},
      8 * ts.length + 2 ≤ n → Gives (expression n p) (s.on ts) e s' → Quiet s s' →
        ReadsUpTo s ts s' fun us rest => Expression (stratumOf p) us e ∧ followLevel rest ≤ p.level
  | 0, _, _, _, _, hn, _, _ => absurd hn (by omega)
  | n + 1, p, ts, e, s', hn, h, hq => by
    obtain ⟨left, s₁, h₁, h₂⟩ := gives_expression.mp h
    obtain ⟨us, t, rest, rfl, rfl, hl⟩ := operand_of_gives hz n (by omega) h₁
      (hq.before (orderly_operators n p left) h₂) p
    have hpos := hl.expression.length_pos
    simp only [List.length_append] at hn
    obtain ⟨vs, t', rest', rfl, rfl, he, hle⟩ := operators_of_gives hz n (by omega) hl h₂ hq
    exact ⟨us ++ vs, t', rest', by simp, rfl, he, hle⟩
termination_by structural n => n

theorem operators_of_gives {s : State} (hz : s.eof.kind = .eof) :
    ∀ (n : Nat) {p : Precedence} {vs : List Token} {t : Token} {ts : List Token} {left e : Expr}
      {s' : State}, 8 * (ts.length + 1) + 1 ≤ n → Extends p vs ts left →
        Gives (operators n p left) (s.on (t :: ts)) e s' → Quiet s s' →
        ReadsUpTo s ts s' fun us rest =>
          Expression (stratumOf p) (vs ++ us) e ∧ followLevel rest ≤ p.level
  | 0, _, _, _, _, _, _, _, hn, _, _, _ => absurd hn (by omega)
  | n + 1, p, vs, t, ts, left, e, s', hn, hl, h, hq => by
    rw [gives_operators] at h
    split at h
    · next hp =>
      obtain ⟨longer, s₁, h₁, h₂⟩ := h
      rw [kind_next_on hz] at hp
      obtain ⟨op, ts, rfl⟩ : ∃ op ts', ts = op :: ts' := by
        cases ts with
        | nil => exact absurd hp (Nat.not_lt_zero _)
        | cons op ts' => exact ⟨op, ts', rfl⟩
      simp only [List.length_cons] at hn
      obtain ⟨us, t', rest, rfl, rfl, hl'⟩ := operation_of_gives hz n (by omega) hl hp h₁
        (hq.before (orderly_operators n p longer) h₂)
      simp only [List.length_append] at hn
      obtain ⟨us', t'', rest', rfl, rfl, he, hle⟩ := operators_of_gives hz n (by omega) hl' h₂ hq
      exact ⟨op :: us ++ us', t'', rest', by simp, rfl, by simpa using he, hle⟩
    · next hp =>
      obtain ⟨rfl, rfl⟩ := h
      rw [kind_next_on hz] at hp
      exact ⟨[], t, ts, rfl, rfl, by simpa using hl.expression, Nat.le_of_not_lt hp⟩
termination_by structural n => n

theorem operation_of_gives {s : State} (hz : s.eof.kind = .eof) :
    ∀ (n : Nat) {p : Precedence} {vs : List Token} {op : Token} {ts : List Token} {left e : Expr}
      {s' : State}, 8 * (ts.length + 1) + 1 ≤ n → Extends p vs (op :: ts) left →
        p.level < (Precedence.ofKind op.kind).level →
        Gives (operation n op left) (s.on (op :: ts)) e s' → Quiet s s' →
        ReadsUpTo s ts s' fun us rest => Extends p (vs ++ op :: us) rest e
  | 0, _, _, _, _, _, _, _, hn, _, _, _, _ => absurd hn (by omega)
  | n + 1, p, vs, op, ts, left, e, s', hn, hl, hp, h, hq => by
    rw [gives_operation] at h
    simp only [State.advance_on] at h
    split at h
    · next hop =>
      obtain ⟨args, h, rfl⟩ := h
      obtain ⟨us, c, rest, rfl, hc, rfl, hitems⟩ := items_of_gives hz n (by omega) (by decide) h hq
      have hf := hl.postfixed (by simp [followLevel, hop]; decide)
      exact ⟨us ++ [c], c, rest, by simp, rfl, .of_postfixed (.call hf hop hitems hc)⟩
    split at h
    · next hop =>
      obtain ⟨key, s₁, h, hcl, rfl, rfl⟩ := h
      obtain ⟨us, t, rest, rfl, rfl, hk, -⟩ := expression_of_gives hz n (by omega) h hq
      obtain ⟨c, rest, rfl, hc⟩ := exists_cons_of_next hz hcl (by decide)
      have hf := hl.postfixed (by simp [followLevel, hop]; decide)
      exact ⟨us ++ [c], c, rest, by simp, rfl, .of_postfixed (.index hf hop hk hc)⟩
    · next hlp hlb =>
      obtain ⟨right, h, rfl⟩ := h
      obtain ⟨us, t, rest, rfl, rfl, hr, hle⟩ := expression_of_gives hz n (by omega) h hq
      obtain ⟨σ, hσ, hmem, hrank, hfollow, htight⟩ := hl.operator hp hlp hlb
      exact ⟨us, t, rest, rfl, rfl, σ, .binary hσ hmem (htight ▸ hr), hrank, hfollow ▸ hle⟩
termination_by structural n => n

theorem operand_of_gives {s : State} (hz : s.eof.kind = .eof) :
    ∀ (n : Nat) {ts : List Token} {e : Expr} {s' : State}, 8 * ts.length + 1 ≤ n →
      Gives (operand n) (s.on ts) e s' → Quiet s s' → ∀ (p : Precedence),
        ReadsUpTo s ts s' fun us rest => Extends p us rest e
  | 0, _, _, _, hn, _, _, _ => absurd hn (by omega)
  | n + 1, [], e, s', hn, h, hq, p => by
    rw [gives_operand] at h
    have heof : (s.on []).current.kind = .eof := hz
    simp [heof] at h
  | n + 1, t :: ts, e, s', hn, h, hq, p => by
    rw [gives_operand] at h
    simp only [List.length_cons] at hn
    simp only [State.current_on, State.advance_on] at h
    split at h
    · next hk =>
      obtain ⟨rfl, rfl⟩ := h
      exact ⟨[t], t, ts, rfl, rfl, .of_primary (.ident hk)⟩
    · next hk =>
      obtain ⟨value, hv, rfl, rfl⟩ := h
      obtain ⟨hle, rfl⟩ := Integer.ofDigits?_eq_some_iff.mp hv
      exact ⟨[t], t, ts, rfl, rfl, .of_primary (.integer hk hle)⟩
    · next hk =>
      obtain ⟨rfl, rfl⟩ := h
      exact ⟨[t], t, ts, rfl, rfl, .of_primary (.float hk)⟩
    · next hk =>
      obtain ⟨rfl, rfl⟩ := h
      exact ⟨[t], t, ts, rfl, rfl, .of_primary (.string hk)⟩
    · next hk =>
      obtain ⟨rfl, rfl⟩ := h
      exact ⟨[t], t, ts, rfl, rfl, .of_primary (.trueWord hk)⟩
    · next hk =>
      obtain ⟨rfl, rfl⟩ := h
      exact ⟨[t], t, ts, rfl, rfl, .of_primary (.falseWord hk)⟩
    · next hk =>
      obtain ⟨right, h, rfl⟩ := h
      obtain ⟨us, t', rest, rfl, rfl, hr, hle⟩ := expression_of_gives hz n (by omega) h hq
      exact ⟨t :: us, t', rest, rfl, rfl, .prefixed, .unary (.inl hk) hr,
        rank_stratumOf_le_prefixed p, hle⟩
    · next hk =>
      obtain ⟨right, h, rfl⟩ := h
      obtain ⟨us, t', rest, rfl, rfl, hr, hle⟩ := expression_of_gives hz n (by omega) h hq
      exact ⟨t :: us, t', rest, rfl, rfl, .prefixed, .unary (.inr hk) hr,
        rank_stratumOf_le_prefixed p, hle⟩
    · next hk =>
      obtain ⟨inner, s₁, h, hcl, rfl, rfl⟩ := h
      obtain ⟨us, t', rest, rfl, rfl, he, -⟩ := expression_of_gives hz n (by omega) h hq
      obtain ⟨c, rest, rfl, hc⟩ := exists_cons_of_next hz hcl (by decide)
      exact ⟨t :: (us ++ [c]), c, rest, by simp, rfl, .of_primary (.group hk he hc)⟩
    · next hk =>
      obtain ⟨elements, h, rfl⟩ := h
      obtain ⟨us, c, rest, rfl, hc, rfl, hs⟩ := items_of_gives hz n (by omega) (by decide) h hq
      exact ⟨t :: (us ++ [c]), c, rest, by simp, rfl, .of_primary (.array hk hs hc)⟩
    · next hk =>
      obtain ⟨entries, h, rfl⟩ := h
      obtain ⟨us, c, rest, rfl, hc, rfl, hs⟩ := pairs_of_gives hz n (by omega) h hq
      exact ⟨t :: (us ++ [c]), c, rest, by simp, rfl, .of_primary (.hash hk hs hc)⟩
    · next hk =>
      obtain ⟨us, t', rest, rfl, rfl, he⟩ := conditional_of_gives hz n (by omega) hk h hq
      exact ⟨t :: us, t', rest, rfl, rfl, .of_primary he⟩
    · next hk =>
      obtain ⟨hlp, names, s₁, h₁, hlb, body, h₂, rfl⟩ := h
      obtain ⟨o, ts, rfl, ho⟩ := exists_cons_of_next hz hlp (by decide)
      obtain ⟨us, c, rest, rfl, hc, rfl, hps⟩ := parameters_of_gives hz h₁
      obtain ⟨b, rest, rfl, hb⟩ := exists_cons_of_next hz hlb (by decide)
      simp only [List.length_append, List.length_cons] at hn
      have h₂ : Gives _ (s.on (b :: rest)) _ _ := h₂
      obtain ⟨vs, t', rest, rfl, rfl, hbody⟩ := block_of_gives hz n (by omega) hb h₂ hq
      exact ⟨t :: o :: (us ++ c :: b :: vs), t', rest, by simp, rfl,
        .of_primary (.function hk ho hps hc hbody)⟩
    · exact h.elim
termination_by structural n => n

theorem conditional_of_gives {s : State} (hz : s.eof.kind = .eof) :
    ∀ (n : Nat) {kw : Token} {ts : List Token} {e : Expr} {s' : State},
      8 * (ts.length + 1) ≤ n → kw.kind = .kwIf →
      Gives (conditional n kw) (s.on (kw :: ts)) e s' → Quiet s s' →
        ReadsUpTo s ts s' fun us _ => Expression .primary (kw :: us) e
  | 0, _, _, _, _, hn, _, _, _ => absurd hn (by omega)
  | n + 1, kw, ts, e, s', hn, hkw, h, hq => by
    rw [gives_conditional] at h
    obtain ⟨hlp, c, s₁, h₁, hrp, hlb, b, s₂, h₂, h⟩ := h
    obtain ⟨o, ts, rfl, ho⟩ := exists_cons_of_next hz hlp (by decide)
    simp only [List.length_cons] at hn
    have hq₂ : Quiet s s₂ := by
      split at h
      · obtain ⟨-, a, h₃, -⟩ := h
        exact hq.before (orderly_block n) h₃
      · obtain ⟨rfl, -⟩ := h
        exact hq
    have h₁ : Gives _ (s.on ts) _ _ := h₁
    obtain ⟨us, t, rest, rfl, rfl, hc, -⟩ := expression_of_gives hz n (by omega) h₁
      (hq₂.before (orderly_block n) h₂)
    obtain ⟨cl, rest, rfl, hcl⟩ := exists_cons_of_next hz hrp (by decide)
    obtain ⟨ob, rest, rfl, hob⟩ := exists_cons_of_next hz hlb (by decide)
    simp only [List.length_append, List.length_cons] at hn
    have h₂ : Gives _ (s.on (ob :: rest)) _ _ := h₂
    obtain ⟨vs, t', rest, rfl, rfl, hb⟩ := block_of_gives hz n (by omega) hob h₂ hq₂
    simp only [List.length_append] at hn
    split at h
    · next helse =>
      obtain ⟨hlb', a, h₃, rfl⟩ := h
      obtain ⟨kwe, rest, rfl, hkwe⟩ := exists_cons_of_next hz helse (by decide)
      obtain ⟨oa, rest, rfl, hoa⟩ := exists_cons_of_next hz hlb' (by decide)
      simp only [List.length_cons] at hn
      have h₃ : Gives _ (s.on (oa :: rest)) _ _ := h₃
      obtain ⟨ws, t'', rest, rfl, rfl, ha⟩ := block_of_gives hz n (by omega) hoa h₃ hq
      exact ⟨o :: (us ++ cl :: (ob :: vs ++ kwe :: oa :: ws)), t'', rest, by simp, rfl,
        .alternative hkw ho hc hcl hb hkwe ha⟩
    · obtain ⟨rfl, rfl⟩ := h
      exact ⟨o :: (us ++ cl :: ob :: vs), t', rest, by simp, rfl, .conditional hkw ho hc hcl hb⟩
termination_by structural n => n

theorem items_of_gives {s : State} (hz : s.eof.kind = .eof) :
    ∀ (n : Nat) {close : Kind} {t : Token} {ts : List Token} {es : List Expr} {s' : State},
      8 * (ts.length + 1) ≤ n → close ≠ .eof → Gives (items n close) (s.on (t :: ts)) es s' →
        Quiet s s' → ∃ us c rest, ts = us ++ c :: rest ∧ c.kind = close ∧ s' = s.on (c :: rest) ∧
          Items us es
  | 0, _, _, _, _, _, hn, _, _, _ => absurd hn (by omega)
  | n + 1, close, t, ts, es, s', hn, hc, h, hq => by
    rw [gives_items] at h
    split at h
    · next hclose =>
      obtain ⟨rfl, rfl⟩ := h
      obtain ⟨c, rest, rfl, hc'⟩ := exists_cons_of_next hz hclose hc
      exact ⟨[], c, rest, rfl, hc', rfl, .none⟩
    · obtain ⟨first, s₁, h₁, others, h₂, rfl⟩ := h
      have h₁ : Gives _ (s.on ts) _ _ := h₁
      obtain ⟨us, t', rest, rfl, rfl, he, -⟩ := expression_of_gives hz n (by omega) h₁
        (hq.before (orderly_moreItems n close) h₂)
      have hpos := he.length_pos
      simp only [List.length_append] at hn
      obtain ⟨vs, c, rest, rfl, hc', rfl, hs⟩ := moreItems_of_gives hz n (by omega) hc h₂ hq he
      exact ⟨us ++ vs, c, rest, by simp, hc', rfl, .some hs⟩
termination_by structural n => n

/-- What `moreItems` reads goes on with a sequence that `us` starts. -/
theorem moreItems_of_gives {s : State} (hz : s.eof.kind = .eof) :
    ∀ (n : Nat) {close : Kind} {t : Token} {us ts : List Token} {e : Expr} {es : List Expr}
      {s' : State}, 8 * (ts.length + 1) ≤ n → close ≠ .eof →
        Gives (moreItems n close) (s.on (t :: ts)) es s' → Quiet s s' →
        Expression .equality us e → ∃ vs c rest, ts = vs ++ c :: rest ∧ c.kind = close ∧
          s' = s.on (c :: rest) ∧ Sequence (us ++ vs) (e :: es)
  | 0, _, _, _, _, _, _, _, hn, _, _, _, _ => absurd hn (by omega)
  | n + 1, close, t, us, ts, e, es, s', hn, hc, h, hq, he => by
    rw [gives_moreItems] at h
    split at h
    · next hcomma =>
      obtain ⟨first, s₁, h₁, others, h₂, rfl⟩ := h
      obtain ⟨comma, ts, rfl, hcm⟩ := exists_cons_of_next hz hcomma (by decide)
      simp only [List.length_cons] at hn
      have h₁ : Gives _ (s.on ts) _ _ := h₁
      obtain ⟨vs, t', rest, rfl, rfl, hf, -⟩ := expression_of_gives hz n (by omega) h₁
        (hq.before (orderly_moreItems n close) h₂)
      simp only [List.length_append] at hn
      obtain ⟨ws, c, rest, rfl, hc', rfl, hs⟩ := moreItems_of_gives hz n (by omega) hc h₂ hq hf
      exact ⟨comma :: (vs ++ ws), c, rest, by simp, hc', rfl, .cons he hcm hs⟩
    · obtain ⟨hclose, rfl, rfl⟩ := h
      obtain ⟨c, rest, rfl, hc'⟩ := exists_cons_of_next hz hclose hc
      exact ⟨[], c, rest, rfl, hc', rfl, by simpa using .one he⟩
termination_by structural n => n

theorem pairs_of_gives {s : State} (hz : s.eof.kind = .eof) :
    ∀ (n : Nat) {t : Token} {ts : List Token} {ps : List (Expr × Expr)} {s' : State},
      8 * (ts.length + 1) ≤ n → Gives (pairs n) (s.on (t :: ts)) ps s' → Quiet s s' →
        ∃ us c rest, ts = us ++ c :: rest ∧ c.kind = .rbrace ∧ s' = s.on (c :: rest) ∧
          Pairs us ps
  | 0, _, _, _, _, hn, _, _ => absurd hn (by omega)
  | n + 1, t, ts, ps, s', hn, h, hq => by
    rw [gives_pairs] at h
    split at h
    · next hclose =>
      obtain ⟨rfl, rfl⟩ := h
      obtain ⟨c, rest, rfl, hc⟩ := exists_cons_of_next hz hclose (by decide)
      exact ⟨[], c, rest, rfl, hc, rfl, .none⟩
    · obtain ⟨key, s₁, h₁, hcolon, value, s₂, h₂, h⟩ := h
      have hq₂ : Quiet s s₂ := by
        split at h
        · obtain ⟨others, h₃, -⟩ := h
          exact hq.before (orderly_pairs n) h₃
        · obtain ⟨-, others, h₃, -⟩ := h
          exact hq.before (orderly_pairs n) h₃
      have h₁ : Gives _ (s.on ts) _ _ := h₁
      obtain ⟨ks, t₁, rest, rfl, rfl, hk, -⟩ := expression_of_gives hz n (by omega) h₁
        (hq₂.before (orderly_expression n _) h₂)
      obtain ⟨colon, rest, rfl, hcl⟩ := exists_cons_of_next hz hcolon (by decide)
      simp only [List.length_append, List.length_cons] at hn
      have h₂ : Gives _ (s.on rest) _ _ := h₂
      obtain ⟨vs, t₂, rest, rfl, rfl, hv, -⟩ :=
        expression_of_gives hz n (by omega) h₂ hq₂
      simp only [List.length_append] at hn
      split at h
      · next hclose =>
        obtain ⟨others, h₃, rfl⟩ := h
        obtain ⟨c, rest, rfl, hc⟩ := exists_cons_of_next hz hclose (by decide)
        -- right before the closing brace there are no more pairs
        obtain ⟨n, rfl⟩ : ∃ m, n = m + 1 := ⟨n - 1, by omega⟩
        rw [gives_pairs, if_pos hclose] at h₃
        obtain ⟨rfl, rfl⟩ := h₃
        exact ⟨ks ++ colon :: vs, c, rest, by simp, hc, rfl, .last hk hcl hv⟩
      · obtain ⟨hcomma, others, h₃, rfl⟩ := h
        obtain ⟨comma, rest, rfl, hcm⟩ := exists_cons_of_next hz hcomma (by decide)
        simp only [List.length_cons] at hn
        have h₃ : Gives _ (s.on (comma :: rest)) _ _ := h₃
        obtain ⟨us, c, rest, rfl, hc, rfl, hs⟩ := pairs_of_gives hz n (by omega) h₃ hq
        exact ⟨ks ++ colon :: (vs ++ comma :: us), c, rest, by simp, hc, rfl,
          .cons hk hcl hv hcm hs⟩
termination_by structural n => n

theorem block_of_gives {s : State} (hz : s.eof.kind = .eof) :
    ∀ (n : Nat) {o : Token} {ts : List Token} {b : Block} {s' : State},
      8 * (ts.length + 1) ≤ n → o.kind = .lbrace → Gives (block n) (s.on (o :: ts)) b s' →
        Quiet s s' → ReadsUpTo s ts s' fun us _ => Braced (o :: us) b
  | 0, _, _, _, _, hn, _, _, _ => absurd hn (by omega)
  | n + 1, o, ts, b, s', hn, ho, h, hq => by
    rw [gives_block] at h
    obtain ⟨body, s₁, h, hcl, rfl, rfl⟩ := h
    have h : readAll n (s.enter.on ts) = (body, s₁) := h
    obtain ⟨us, rest, rfl, rfl, hend, hs⟩ :=
      statements_of_readAll (s := s.enter) hz n (by omega) h hq
    have hbrace : firstKind rest .eof = .rbrace := by
      rcases (atEnd_on (s := s.enter) hz).mp hend with heof | ⟨hb, -⟩
      · cases rest with
        | nil => exact absurd hz hcl
        | cons c rest => exact absurd heof hcl
      · exact hb
    cases rest with
    | nil => simp at hbrace
    | cons c rest =>
      exact ⟨us ++ [c], c, rest, by simp, rfl, .mk ho (hbrace ▸ hs) hbrace⟩
termination_by structural n => n

theorem statements_of_readAll {s : State} (hz : s.eof.kind = .eof) :
    ∀ (n : Nat) {ts : List Token} {ss : List Stmt} {s' : State}, 8 * ts.length + 4 ≤ n →
      readAll n (s.on ts) = (ss, s') → Quiet s s' →
        ∃ us rest, ts = us ++ rest ∧ s' = s.on rest ∧ (s.on rest).atEnd = true ∧
          Statements (firstKind rest .eof) us ss
  | 0, _, _, _, hn, _, _ => absurd hn (by omega)
  | n + 1, ts, ss, s', hn, h, hq => by
    rw [readAll_succ] at h
    split at h
    · next hend =>
      obtain ⟨rfl, rfl⟩ := Prod.mk.inj h
      exact ⟨[], ts, rfl, rfl, hend, .nil⟩
    rcases hst : exec (statement n) (s.on ts) with ⟨_ | first, s₁⟩
    · -- a statement that fails has reported something
      have hfail := (orderly_statement n).reports (s.on ts) (by rw [hst])
      have hlater := (reaches_recover s₁).trans (reaches_readAll n (recover s₁))
      rw [hst] at h hfail
      dsimp only at h
      rw [h] at hlater
      exact absurd (Nat.lt_of_lt_of_le hfail hlater.length_reported_le) (Nat.not_lt.mpr hq)
    · rw [hst] at h
      obtain ⟨rfl, rfl⟩ := Prod.mk.inj h
      have hlater := (reaches_readAll n s₁.advance).length_reported_le
      obtain ⟨us, t, rest, rfl, rfl, hs⟩ := statement_of_gives hz n (by omega) hst
        (Nat.le_trans hlater hq)
      have hpos : 0 < us.length := by
        obtain ⟨_, _, rfl, -⟩ := hs.exists_cons
        simp
      simp only [List.length_append] at hn
      have hrest : readAll n (s.on rest) = (_, _) := (Prod.eta _).symm
      obtain ⟨vs, rest', rfl, hs', hend, hss⟩ := statements_of_readAll hz n (by omega) hrest hq
      refine ⟨us ++ vs, rest', by simp, hs', hend, .cons ?_ hss⟩
      rwa [firstKind_append] at hs
termination_by structural n => n

theorem statement_of_gives {s : State} (hz : s.eof.kind = .eof) :
    ∀ (n : Nat) {ts : List Token} {st : Stmt} {s' : State}, 8 * ts.length + 3 ≤ n →
      Gives (statement n) (s.on ts) st s' → Quiet s s' →
        ReadsUpTo s ts s' fun us rest => Statement (firstKind rest .eof) us st
  | 0, _, _, _, hn, _, _ => absurd hn (by omega)
  | n + 1, [], st, s', hn, h, hq => by
    have heof : (s.on []).current.kind = .eof := hz
    obtain ⟨value, s₁, h₁, hs', -⟩ := (gives_statement_expr (by simp [heof]) (by simp [heof])).mp h
    have hq₁ : Quiet s s₁ := by
      rw [hs'] at hq
      split at hq <;> exact hq
    obtain ⟨us, _, _, heq, -, he, -⟩ := expression_of_gives hz n (by omega) h₁ hq₁
    have hpos := he.length_pos
    simp [(List.append_eq_nil_iff.mp heq.symm).1] at hpos
  | n + 1, t :: ts, st, s', hn, h, hq => by
    rw [gives_statement] at h
    simp only [State.current_on] at h
    simp only [List.length_cons] at hn
    split at h
    · next hk =>
      obtain ⟨hname, hassign, value, s₁, h₁, h₂, rfl⟩ := h
      obtain ⟨name, ts, rfl, hname⟩ := exists_cons_of_next hz hname (by decide)
      obtain ⟨assign, ts, rfl, hassign⟩ := exists_cons_of_next hz hassign (by decide)
      simp only [List.length_cons] at hn
      have h₁ : Gives _ (s.on ts) _ _ := h₁
      obtain ⟨us, t', rest, rfl, rfl, he, -⟩ := expression_of_gives hz n (by omega) h₁
        (hq.before orderly_terminator h₂)
      obtain ⟨vs, t'', rest, rfl, rfl, ht⟩ := terminator_of_gives hz h₂
      exact ⟨t :: name :: assign :: (us ++ vs), t'', rest, by simp, rfl,
        .bind hk hname hassign he ht⟩
    · next hk =>
      split at h
      · obtain ⟨h, rfl⟩ := h
        obtain ⟨vs, t', rest, rfl, rfl, ht⟩ := terminator_of_gives hz h
        exact ⟨t :: vs, t', rest, rfl, rfl, .bare hk ht⟩
      · obtain ⟨value, s₁, h₁, h₂, rfl⟩ := h
        have h₁ : Gives _ (s.on ts) _ _ := h₁
        obtain ⟨us, t', rest, rfl, rfl, he, -⟩ := expression_of_gives hz n (by omega) h₁
          (hq.before orderly_terminator h₂)
        obtain ⟨vs, t'', rest, rfl, rfl, ht⟩ := terminator_of_gives hz h₂
        exact ⟨t :: (us ++ vs), t'', rest, by simp, rfl, .ret hk he ht⟩
    · obtain ⟨value, s₁, h₁, rfl, rfl⟩ := h
      have hq₁ : Quiet s s₁ := by
        split at hq <;> exact hq
      obtain ⟨us, t', rest, heq, rfl, he, hle⟩ := expression_of_gives hz n (by simp; omega) h₁ hq₁
      obtain ⟨_, us, rfl, -⟩ := he.exists_cons
      obtain ⟨rfl, rfl⟩ := List.cons.inj heq
      split
      · next hsemi =>
        obtain ⟨c, rest, rfl, hc⟩ := exists_cons_of_next hz hsemi (by decide)
        exact ⟨t :: (us ++ [c]), c, rest, by simp, rfl, .closed he hc⟩
      · exact ⟨t :: us, t', rest, rfl, rfl, .unclosed he (not_continuing_of_followLevel hle)⟩
termination_by structural n => n

end

/-- A stream that is parsed without a diagnostic is derived, with the tree that it has. -/
theorem derives_of_parse {stream : TokenStream} (hz : stream.eof.kind = .eof)
    (hts : ∀ t ∈ stream.tokens, t.kind ≠ .eof) (h : stream.parse.diagnostics = []) :
    Derives stream.tokens stream.parse.program := by
  have hquiet : Quiet (State.ofStream stream)
      (readAll (State.ofStream stream).reach (State.ofStream stream)).2 :=
    Nat.le_of_eq (congrArg List.length (List.reverse_eq_nil_iff.mp h))
  obtain ⟨us, rest, heq, -, hend, hs⟩ := statements_of_readAll (s := State.ofStream stream) hz
    (State.ofStream stream).reach (by simp [State.reach, State.ofStream]; omega)
    (Prod.eta _).symm hquiet
  have heof : firstKind rest .eof = .eof := by
    rcases (atEnd_on hz).mp hend with heof | ⟨-, hopen⟩
    · exact heof
    · exact absurd hopen (Nat.lt_irrefl 0)
  cases rest with
  | nil =>
    rw [List.append_nil] at heq
    exact heq ▸ hs
  | cons t rest =>
    refine absurd heof (hts t ?_)
    rw [show stream.tokens = us ++ t :: rest from heq]
    simp

/-- A text is parsed without diagnostics exactly if the grammar derives its tokens, and
the program that is parsed is then the only one that it derives. -/
theorem accepts_iff_derives (source : String) :
    ((parse source).diagnostics = [] ↔ ∃ p, Derives (Token.scan source).tokens p) ∧
      ∀ p, Derives (Token.scan source).tokens p → p = (parse source).program := by
  have hz := Token.kind_eof_scan source
  have hts : ∀ t ∈ (Token.scan source).tokens, t.kind ≠ .eof :=
    fun _ => Token.kind_ne_eof_of_mem_scan
  have hparse : ∀ p, Derives (Token.scan source).tokens p → parse source = ⟨p, []⟩ :=
    fun _ h => parse_of_derives hz h
  refine ⟨⟨fun h => ⟨_, derives_of_parse hz hts h⟩, ?_⟩, ?_⟩
  · rintro ⟨p, hp⟩
    rw [hparse p hp]
  · intro p hp
    rw [hparse p hp]

end Monkey.Grammar
