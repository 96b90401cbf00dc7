import Monkey.Proofs.Scanning.Tiling

/-!
# Tokens in the order of their places

Reading a text moves its place on and never back (`Location.before_pastAll`). So two beginnings of
a text that end at the same place are the same (`Location.behind_append_inj`), and the tokens of a
text come in the order of their places (`Token.Tiles.pairwise_before`). No token comes twice: a
token is known from where it stands (`Token.nodup_scan`).
-/

namespace Monkey

namespace Location

/-- Whether a place comes before another one in a text. -/
def Before (l m : Location) : Prop :=
  l.line < m.line ∨ (l.line = m.line ∧ l.column < m.column)

theorem not_before_self (l : Location) : ¬l.Before l := by
  simp [Before]

theorem Before.trans {l m n : Location} (hlm : l.Before m) (hmn : m.Before n) : l.Before n := by
  unfold Before at *
  omega

theorem before_past (l : Location) (c : Char) : l.Before (l.past c) := by
  unfold past
  split
  · exact .inl (Nat.lt_succ_self _)
  · exact .inr ⟨rfl, Nat.lt_succ_self _⟩

theorem before_pastAll {cs : List Char} (hne : cs ≠ []) (l : Location) :
    l.Before (l.pastAll cs) := by
  induction cs generalizing l with
  | nil => exact absurd rfl hne
  | cons c cs ih =>
    rw [pastAll_cons]
    rcases eq_or_ne cs [] with rfl | hcs
    · exact l.before_past c
    · exact (l.before_past c).trans (ih hcs _)

/-- Behind a text that goes on, the place is a later one. -/
theorem behind_before_append (before : List Char) {cs : List Char} (hne : cs ≠ []) :
    (behind before).Before (behind (before ++ cs)) := by
  rw [behind_append]
  exact before_pastAll hne _

/-- Of the beginnings of a text, no two end at the same place. -/
theorem behind_append_inj {before cs p q : List Char} (hp : p <+: cs) (hq : q <+: cs)
    (h : behind (before ++ p) = behind (before ++ q)) : p = q := by
  have hlonger {p d : List Char} (h : behind (before ++ p) = behind (before ++ (p ++ d))) :
      d = [] := by
    by_contra hd
    have hbefore := behind_before_append (before ++ p) hd
    rw [List.append_assoc, ← h] at hbefore
    exact not_before_self _ hbefore
  rcases List.prefix_or_prefix_of_prefix hp hq with ⟨d, rfl⟩ | ⟨d, rfl⟩
  · rw [hlonger h, List.append_nil]
  · rw [hlonger h.symm, List.append_nil]

end Location

namespace Token

/-- A token has the place of what is left of the text from its first character on. -/
theorem Tiles.exists_split {before cs : List Char} {ts : List Token} {t : Token}
    (h : Tiles before cs ts) (ht : t ∈ ts) :
    ∃ p q, cs = p ++ q ∧ q ≠ [] ∧ t.location = .behind (before ++ p) := by
  induction h with
  | blank => cases ht
  | @token before gap rest u ts hgap hplace hfits htiles ih =>
    rcases List.mem_cons.mp ht with rfl | ht
    · exact ⟨gap, t.lexeme ++ rest, rfl, by simp [lexeme, hfits.lexeme_ne_nil], hplace⟩
    · obtain ⟨p, q, rfl, hq, hp⟩ := ih ht
      exact ⟨gap ++ u.lexeme ++ p, q, by simp, hq, by simpa using hp⟩

/-- The tokens that tile a text come in the order of their places. -/
theorem Tiles.pairwise_before {before cs : List Char} {ts : List Token} (h : Tiles before cs ts) :
    ts.Pairwise fun t u => t.location.Before u.location := by
  induction h with
  | blank => exact .nil
  | @token before gap rest t ts hgap hplace hfits htiles ih =>
    refine .cons (fun u hu => ?_) ih
    obtain ⟨p, q, -, -, hp⟩ := htiles.exists_split hu
    have hne : t.lexeme ++ p ≠ [] := by simp [lexeme, hfits.lexeme_ne_nil]
    rw [hplace, hp, List.append_assoc _ t.lexeme]
    exact Location.behind_before_append _ hne

/-- No token of a text comes twice, and the end token is not one of the others. -/
theorem nodup_scan (source : String) : (scan source).toList.Nodup := by
  have htiles : Tiles [] source.toList (scan source).tokens := tiles_scanFrom [] source.toList
  have htokens : (scan source).tokens.Nodup := by
    refine htiles.pairwise_before.imp fun hbefore => ?_
    rintro rfl
    exact Location.not_before_self _ hbefore
  refine List.nodup_append.mpr ⟨htokens, by simp, fun t ht e he hte => ?_⟩
  rw [hte, List.mem_singleton.mp he] at ht
  exact kind_ne_eof_of_mem_scan ht (kind_eof_scan source)

end Token

end Monkey
