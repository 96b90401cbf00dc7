import Monkey.Proofs.Parser.Recovery
import Monkey.Proofs.Scanning

/-!
# Where blocks end

Braces are paired by nesting: `Token.closing` goes on from an opening brace and counts how
many are open. Here a parser is followed by another count, `Token.surplus`: how many more
braces are closed than opened by the tokens that are left. What is read passes a closing
brace only for an opening one that it has passed, so the count never falls below what it is
where reading starts (`Past`, `Keeps`). Without a diagnostic it is the same again at the end.
Inside a block this holds for the loop over statements also, since `recover` stops at each
closing brace. All parsers are treated at once (`Call.allKeep_body`), by what each does
itself.

So a block never ends behind its closing brace, and ends on it if nothing is reported. But if
an expression fails between its own braces, `recover` stops at a brace that is not the
block's, and the block ends there (`block_ends_on_partner_iff`, `block_ends_on_inner_brace`).
-/

namespace Monkey

namespace Token

/-- How many braces a kind of token closes: an opening one counts against the closing ones. -/
def Kind.closes : Kind → Int
  | rbrace => 1
  | lbrace => -1
  | _ => 0

/-- How many more braces tokens close than open. -/
def surplus : List Token → Int
  | [] => 0
  | t :: ts => t.kind.closes + surplus ts

/-- Where the brace is that closes what is open, when `depth` others are open inside of it. -/
def closing : (depth : Nat) → List Token → Option Nat
  | _, [] => none
  | depth, t :: ts =>
    if t.kind = .lbrace then (closing (depth + 1) ts).map (· + 1)
    else if t.kind = .rbrace then
      if depth = 0 then some 0 else (closing (depth - 1) ts).map (· + 1)
    else (closing depth ts).map (· + 1)

/-- Where the brace is that is paired with the opening one at `i`. -/
def partner (ts : List Token) (i : Nat) : Option Nat :=
  (closing 0 (ts.drop (i + 1))).map (· + (i + 1))

/-- From `ts` on to `ts'` the surplus of what is left never falls below `b`. -/
def StaysAbove (b : Int) (ts ts' : List Token) : Prop :=
  ts' <:+ ts ∧ ∀ us, ts' <:+ us → us <:+ ts → b ≤ surplus us

namespace StaysAbove

variable {b : Int} {ts ts₁ ts₂ : List Token}

theorem refl (h : b ≤ surplus ts) : StaysAbove b ts ts := by
  refine ⟨List.suffix_refl ts, fun us hus hus' => ?_⟩
  rwa [hus'.eq_of_length_le hus.length_le]

theorem trans (h : StaysAbove b ts ts₁) (h₁ : StaysAbove b ts₁ ts₂) : StaysAbove b ts ts₂ := by
  refine ⟨h₁.1.trans h.1, fun us hus hus' => ?_⟩
  rcases List.suffix_or_suffix_of_suffix hus' h.1 with hle | hle
  · exact h₁.2 us hus hle
  · exact h.2 us hle hus'

theorem weaken {b' : Int} (h : StaysAbove b ts ts₁) (hle : b' ≤ b) : StaysAbove b' ts ts₁ :=
  ⟨h.1, fun us hus hus' => Int.le_trans hle (h.2 us hus hus')⟩

theorem le_surplus (h : StaysAbove b ts ts₁) : b ≤ surplus ts₁ :=
  h.2 ts₁ (List.suffix_refl _) h.1

theorem tail (h : b ≤ surplus ts) (h' : b ≤ surplus ts.tail) : StaysAbove b ts ts.tail := by
  cases ts with
  | nil => exact refl h
  | cons t ts =>
    refine ⟨List.suffix_cons t ts, fun us hus hus' => ?_⟩
    rcases List.suffix_cons_iff.mp hus' with rfl | hle
    · exact h
    · rwa [hle.eq_of_length_le hus.length_le]

/-- Without closing braces the surplus of what is left only grows. -/
theorem of_forall {skipped : List Token} (ts : List Token) (h : ∀ t ∈ skipped, t.kind ≠ .rbrace) :
    StaysAbove (surplus (skipped ++ ts)) (skipped ++ ts) ts := by
  induction skipped with
  | nil => exact refl (Int.le_refl _)
  | cons t skipped ih =>
    have hle : surplus (t :: (skipped ++ ts)) ≤ surplus (skipped ++ ts) := by
      have hne := h t (List.mem_cons_self ..)
      have hcloses : t.kind.closes ≤ 0 := by
        generalize t.kind = kind at hne
        cases kind <;> simp_all [Kind.closes]
      rw [surplus]
      omega
    have ih := ih fun u hu => h u (List.mem_cons_of_mem _ hu)
    exact (tail (Int.le_refl _) hle).trans (ih.weaken hle)

end StaysAbove

/-! ## Paired braces -/

theorem Kind.closes_of_ne {kind : Kind} (hopen : kind ≠ .lbrace) (hclose : kind ≠ .rbrace) :
    kind.closes = 0 := by
  cases kind <;> simp_all [closes]

/-- The closing brace that is found comes after as many more closing braces as were open. -/
theorem surplus_drop_of_closing {depth k : Nat} {ts : List Token} (h : closing depth ts = some k) :
    ∃ t rest, ts.drop k = t :: rest ∧ t.kind = .rbrace ∧
      surplus (ts.drop k) = surplus ts - depth := by
  fun_induction closing depth ts generalizing k with
  | case1 => cases h
  | case2 depth t ts hopen ih =>
    obtain ⟨k, hk, rfl⟩ := Option.map_eq_some_iff.mp h
    obtain ⟨u, rest, hu, hkind, hsurplus⟩ := ih hk
    refine ⟨u, rest, hu, hkind, ?_⟩
    rw [List.drop_succ_cons, hsurplus, surplus, hopen, Kind.closes]
    omega
  | case3 t ts hopen hclose =>
    cases h
    exact ⟨t, ts, rfl, hclose, by simp⟩
  | case4 depth t ts hopen hclose hdepth ih =>
    obtain ⟨k, hk, rfl⟩ := Option.map_eq_some_iff.mp h
    obtain ⟨u, rest, hu, hkind, hsurplus⟩ := ih hk
    refine ⟨u, rest, hu, hkind, ?_⟩
    rw [List.drop_succ_cons, hsurplus, surplus, hclose, Kind.closes]
    omega
  | case5 depth t ts hopen hclose ih =>
    obtain ⟨k, hk, rfl⟩ := Option.map_eq_some_iff.mp h
    obtain ⟨u, rest, hu, hkind, hsurplus⟩ := ih hk
    refine ⟨u, rest, hu, hkind, ?_⟩
    rw [List.drop_succ_cons, hsurplus, surplus, Kind.closes_of_ne hopen hclose]
    omega

/-- Up to the closing brace the surplus stays above what it is behind it. -/
theorem le_of_closing {depth k k' : Nat} {ts : List Token} (h : closing depth ts = some k)
    (habove : StaysAbove (surplus ts - depth) ts (ts.drop k')) : k' ≤ k := by
  obtain ⟨t, rest, hdrop, hkind, hsurplus⟩ := surplus_drop_of_closing h
  refine Nat.le_of_not_lt fun hlt => ?_
  have hle := habove.2 (ts.drop (k + 1)) (List.drop_suffix_drop_left ts hlt) (List.drop_suffix _ _)
  have hrest : ts.drop (k + 1) = rest := by
    rw [← List.tail_drop, hdrop, List.tail_cons]
  rw [hrest] at hle
  rw [hdrop, surplus, hkind, Kind.closes] at hsurplus
  omega

theorem closing_of_staysAbove {depth k : Nat} {ts rest : List Token} {t : Token}
    (hdrop : ts.drop k = t :: rest) (hkind : t.kind = .rbrace)
    (habove : StaysAbove (surplus ts - depth) ts (ts.drop k))
    (hsurplus : surplus (ts.drop k) = surplus ts - depth) : closing depth ts = some k := by
  induction ts generalizing depth k with
  | nil => simp at hdrop
  | cons u us ih =>
    cases k with
    | zero =>
      obtain ⟨rfl, rfl⟩ := List.cons_eq_cons.mp hdrop
      have hdepth : depth = 0 := by
        rw [List.drop_zero] at hsurplus
        omega
      rw [closing, hkind, if_neg (by decide), if_pos rfl, if_pos hdepth]
    | succ k =>
      rw [List.drop_succ_cons] at hdrop habove hsurplus
      have hle : surplus (u :: us) - depth ≤ surplus us :=
        habove.2 us (List.drop_suffix k us) (List.suffix_cons u us)
      have hinner (depth' : Nat) (heq : surplus (u :: us) - depth = surplus us - depth') :
          closing depth' us = some k := by
        rw [heq] at habove hsurplus
        refine ih hdrop ⟨List.drop_suffix k us, fun vs hvs hvs' => ?_⟩ hsurplus
        exact habove.2 vs hvs (hvs'.trans (List.suffix_cons u us))
      rw [closing]
      rw [surplus] at hinner hle
      split
      · next hopen =>
        rw [hopen, Kind.closes] at hinner
        rw [hinner (depth + 1) (by omega)]
        rfl
      split
      · next hclose =>
        rw [hclose, Kind.closes] at hinner hle
        rw [if_neg (by omega), hinner (depth - 1) (by omega)]
        rfl
      · next hopen hclose =>
        rw [Kind.closes_of_ne hopen hclose] at hinner
        rw [hinner depth (by omega)]
        rfl

theorem surplus_append (ts us : List Token) : surplus (ts ++ us) = surplus ts + surplus us := by
  induction ts with
  | nil => simp [surplus]
  | cons t ts ih => simp only [List.cons_append, surplus, ih, Int.add_assoc]

section

variable {ts : List Token} {i k : Nat}

theorem partner_eq_some_iff :
    partner ts i = some (i + 1 + k) ↔ closing 0 (ts.drop (i + 1)) = some k := by
  rw [partner, Option.map_eq_some_iff]
  constructor
  · rintro ⟨k', hk', heq⟩
    rwa [show k = k' by omega]
  · exact fun hk => ⟨k, hk, by omega⟩

/-- Up to the partner of an opening brace no brace is closed that is not opened behind it. -/
theorem le_of_partner {j : Nat} (h : partner ts i = some j)
    (habove : StaysAbove (surplus (ts.drop (i + 1))) (ts.drop (i + 1)) (ts.drop (i + 1 + k))) :
    i + 1 + k ≤ j := by
  obtain ⟨k', hk', rfl⟩ := Option.map_eq_some_iff.mp h
  rw [← List.drop_drop (i := k)] at habove
  have hle := le_of_closing hk' (habove.weaken (Int.sub_le_self _ (Int.natCast_nonneg 0)))
  omega

/-- A closing brace is the partner of an opening one if what is between them closes as many braces
as it opens. -/
theorem partner_iff {t : Token}
    (habove : StaysAbove (surplus (ts.drop (i + 1))) (ts.drop (i + 1)) (ts.drop (i + 1 + k)))
    (ht : ts[i + 1 + k]? = some t) (hkind : t.kind = .rbrace) :
    partner ts i = some (i + 1 + k) ↔ surplus ((ts.drop (i + 1)).take k) = 0 := by
  rw [partner_eq_some_iff]
  rw [← List.drop_drop (i := k)] at habove
  rw [← List.getElem?_drop] at ht
  generalize ts.drop (i + 1) = us at *
  have hsum : surplus us = surplus (us.take k) + surplus (us.drop k) := by
    rw [← surplus_append, List.take_append_drop]
  constructor
  · intro h
    obtain ⟨_, _, -, -, hsurplus⟩ := surplus_drop_of_closing h
    omega
  · intro h
    obtain ⟨hk, rfl⟩ := List.getElem?_eq_some_iff.mp ht
    have hzero : surplus us - (0 : Nat) ≤ surplus us := Int.sub_le_self _ (Int.natCast_nonneg 0)
    exact closing_of_staysAbove (List.drop_eq_getElem_cons hk) hkind (habove.weaken hzero)
      (by omega)

end

end Token

namespace Parser

variable {α β : Type}

/-! ## Surplus along a parser -/

namespace State

/-- The surplus of what is left, with the current token. -/
def before (s : State) : Int := Token.surplus s.ahead

/-- The surplus of what is left behind the current token. -/
def past (s : State) : Int := Token.surplus s.ahead.tail

theorem before_advance (s : State) : s.advance.before = s.past := rfl

theorem before_eq {s : State} (heof : s.eof.kind = .eof) :
    s.before = s.current.kind.closes + s.past := by
  rcases hts : s.ahead with _ | ⟨t, ts⟩
  · simp [before, past, current, hts, heof, Token.Kind.closes]
  · simp [before, past, current, hts, Token.surplus]

end State

/-- Reading has come from `s` to the last token of what it reads, and the surplus of what is left
behind that token is `base`, or more if there was something to report. -/
structure Past (b base : Int) (s s' : State) : Prop where
  eof : s'.eof.kind = .eof
  above : Token.StaysAbove b s.ahead s'.ahead
  reported : s.reported.length ≤ s'.reported.length
  least : base ≤ s'.past
  clean : s'.reported.length = s.reported.length → s'.past = base

/-- Reading has come to the last token of what it reads, or it has failed above `b`. -/
def Keeps (b base : Int) (s : State) : Option α → State → Prop
  | some _, s' => Past b base s s'
  | none, s' => Token.StaysAbove b s.ahead s'.ahead ∧ s.reported.length < s'.reported.length

theorem Meets.imp {x : Parser α} {s : State} {P Q : Option α → State → Prop} (h : Meets x s P)
    (himp : ∀ r s', P r s' → Q r s') : Meets x s Q :=
  fun heof => ⟨(h heof).1, himp _ _ (h heof).2⟩

theorem Meets.withEof {x : Parser α} {s : State} {P : Option α → State → Prop}
    (h : s.eof.kind = .eof → Meets x s P) : Meets x s P :=
  fun heof => h heof heof

theorem Keeps.of_advance {b base : Int} {s s' : State} {r : Option α} (h : b ≤ s.before)
    (h' : b ≤ s.past) (hr : Keeps b base s.advance r s') : Keeps b base s r s' := by
  have htail := Token.StaysAbove.tail h h'
  cases r with
  | none => exact ⟨htail.trans hr.1, hr.2⟩
  | some a => exact ⟨hr.eof, htail.trans hr.above, hr.reported, hr.least, hr.clean⟩

namespace Past

variable {b base base' : Int} {s s₁ s₂ : State}

theorem le_before (h : Past b base s s₁) : b ≤ s₁.before := h.above.le_surplus

theorem le_past (h : Past b base s s₁) (hb : b ≤ base) : b ≤ s₁.past := Int.le_trans hb h.least

theorem start (heof : s.eof.kind = .eof) (h : b ≤ s.before) : Past b s.past s s :=
  ⟨heof, .refl h, Nat.le_refl _, Int.le_refl _, fun _ => rfl⟩

theorem here (heof : s.eof.kind = .eof) (h : b ≤ s.before) (hkind : s.current.kind.closes = 0) :
    Past b s.before s s := by
  have hsame : s.before = s.past := by rw [State.before_eq heof, hkind, Int.zero_add]
  rw [hsame]
  exact start heof h

/-- What is read on from the current token counts from behind it. -/
theorem keeps {r : Option α} (h : Past b base s s₁) (base₁ : Int)
    (hbase : base' - base = base₁ - s₁.past) (h₁ : Keeps b base₁ s₁ r s₂) :
    Keeps b base' s r s₂ := by
  have hreported := h.reported
  cases r with
  | none => exact ⟨h.above.trans h₁.1, Nat.lt_of_le_of_lt hreported h₁.2⟩
  | some a =>
    have hreported₁ := h₁.reported
    have hleast := h.least
    have hleast₁ := h₁.least
    refine ⟨h₁.eof, h.above.trans h₁.above, by omega, by omega, fun hclean => ?_⟩
    have hclean₁ := h₁.clean (by omega)
    have hclean := h.clean (by omega)
    omega

theorem advance (h : Past b base s s₁) (hb : b ≤ base) (hkind : s₁.next.kind.closes = 0) :
    Past b base s s₁.advance := by
  have hleast := h.least
  have hnext : s₁.past = s₁.next.kind.closes + s₁.advance.past :=
    State.before_eq (s := s₁.advance) h.eof
  have hsame : s₁.advance.past = s₁.past := by omega
  refine ⟨h.eof, h.above.trans (.tail h.le_before ?_), h.reported, hsame ▸ hleast, ?_⟩
  · exact h.le_past hb
  · exact fun hclean => hsame.trans (h.clean hclean)

theorem bind {x : Parser α} {f : α → Parser β} (h : Past b base s s₁)
    (hx : Meets x s₂ (Keeps b s₁.past s₁))
    (hf : ∀ a s₃, Past b base s s₃ → Meets (f a) s₃ (Keeps b base' s)) :
    Meets (x >>= f) s₂ (Keeps b base' s) := by
  have hkeeps (r : Option α) (s₃ : State) (hr : Keeps b s₁.past s₁ r s₃) : Keeps b base s r s₃ :=
    h.keeps s₁.past (by omega) hr
  exact hx.bind (fun s₃ _ hnone => hkeeps none s₃ hnone) fun a s₃ _ hsome =>
    hf a s₃ (hkeeps (some a) s₃ hsome)

theorem refuse (h : Past b base s s₁) (d : Diagnostic) :
    Keeps (α := α) b base' s none (s₁.report d) :=
  ⟨h.above, Nat.lt_succ_of_le h.reported⟩

theorem expect {kind : Token.Kind} {f : Unit → Parser β} (h : Past b base s s₁) (hb : b ≤ base)
    (hkind : kind.closes = 0)
    (hf : Past b base s s₁.advance → Meets (f ()) s₁.advance (Keeps b base' s)) :
    Meets (Parser.expect kind >>= f) s₁ (Keeps b base' s) := by
  refine Meets.expect (fun hnext => hf (h.advance hb ?_)) (h.refuse _)
  rw [← hkind, ← hnext]
  rfl

theorem terminator {f : Unit → Parser β} (h : Past b base s s₁) (hb : b ≤ base)
    (hf : ∀ s₂, Past b base s s₂ → Meets (f ()) s₂ (Keeps b base' s)) :
    Meets (Parser.terminator >>= f) s₁ (Keeps b base' s) := by
  refine Meets.terminator (fun hnext => hf _ (h.advance hb ?_)) (hf _ h) (h.refuse _)
  rw [show s₁.next.kind = .semicolon from hnext]
  rfl

end Past

namespace Call

/-- Whether the parser of a call may be started. The loop over statements keeps to the braces only
inside of a block. -/
def Apt : {α : Type} → Call α → State → Prop
  | _, items close, _ | _, moreItems close, _ => close.closes = 0
  | _, statements, s => 0 < s.openBlocks
  | _, _, _ => True

/-- The surplus behind all that a call reads. A block and the pairs of a hash have been opened by
a brace that they close. -/
def base : {α : Type} → Call α → State → Int
  | _, expression _, s | _, operand, s | _, statement, s | _, statements, s => s.before
  | _, pairs, s | _, block, s => s.past - 1
  | _, _, s => s.past

/-- What becomes of the surplus. The loop over statements stops before the token that ends it. -/
def Levels (b : Int) : {α : Type} → Call α → State → Option α → State → Prop
  | _, statements, s, _, s' => Token.StaysAbove b s.ahead s'.ahead ∧ s.before ≤ s'.before ∧
      (s'.reported.length = s.reported.length → s'.before = s.before)
  | _, c, s, r, s' => Keeps b (c.base s) s r s'

/-- What is read of a block stays above the brace that opens it, and ends on a brace that closes. -/
def Encloses (s : State) (r : Option Block) (s' : State) : Prop :=
  Token.StaysAbove s.past s.ahead.tail s'.ahead ∧ match r with
    | some _ => s'.current.kind = .rbrace ∧
      (s'.reported.length = s.reported.length → s'.before = s.past)
    | none => s.reported.length < s'.reported.length

/-- Every call keeps to the braces. -/
def AllKeep (call : Handler) : Prop :=
  ∀ (α : Type) (c : Call α) (s : State) (b : Int), c.Apt s → b ≤ s.before → b ≤ c.base s →
    Meets (call α c) s (c.Levels b s)

theorem allKeep_giveUp : AllKeep giveUp := by
  intro α c s b hc hb _
  have hrefuse {α : Type} {base : Int} :
      Meets (refuseOperand : Parser α) s (Keeps b base s) :=
    Meets.refuseOperand fun _ _ => ⟨.refl hb, Nat.lt_succ_self _⟩
  cases c with
  | statements =>
    refine fun _ => ⟨reaches_skipToEnd s, ?_⟩
    show statements.Levels b s (some []) (skipToEnd s)
    have hskip : Token.StaysAbove s.before s.ahead (skipToEnd s).ahead := by
      let passed (t : Token) : Bool := !(t.kind == .rbrace && decide (s.openBlocks > 0))
      have hnone : ∀ t ∈ s.ahead.takeWhile passed, t.kind ≠ .rbrace := by
        intro t ht hkind
        have hpassed := List.all_takeWhile (p := passed) (l := s.ahead)
        have hopen : 0 < s.openBlocks := hc
        simpa [passed, hkind, hopen] using List.all_eq_true.mp hpassed t ht
      have hstays := Token.StaysAbove.of_forall (s.ahead.dropWhile passed) hnone
      rwa [List.takeWhile_append_dropWhile] at hstays
    refine ⟨hskip.weaken hb, hskip.le_surplus, ?_⟩
    exact fun hclean => absurd hclean (Nat.succ_ne_self _)
  | _ => exact hrefuse

section

variable {call : Handler} {s s₁ : State} {b base base' : Int}

namespace AllKeep

/-- An expression is read from the next token on. -/
theorem expression {f : Expr → Parser β} {p : Precedence} (h : AllKeep call)
    (hp : Past b base s s₁) (hb : b ≤ base)
    (hf : ∀ e s₂, Past b base s s₂ → Meets (f e) s₂ (Keeps b base' s)) :
    Meets (Parser.advance >>= fun _ => call _ (.expression p) >>= f) s₁ (Keeps b base' s) := by
  have hpast := hp.le_past hb
  have hexpr := h _ (.expression p) s₁.advance b trivial hpast hpast
  refine Meets.advance (hp.bind (hexpr.imp ?_) hf)
  exact fun r s₂ hr => hr.of_advance hp.le_before hpast

/-- A block is read from the next token on. -/
theorem block {f : Block → Parser β} (h : AllKeep call) (hp : Past b base s s₁) (hb : b ≤ base)
    (hf : ∀ body s₂, Past b base s s₂ → Meets (f body) s₂ (Keeps b base' s)) :
    Meets (expect .lbrace >>= fun _ => call _ .block >>= f) s₁ (Keeps b base' s) := by
  have hpast := hp.le_past hb
  refine Meets.expect (fun hnext => ?_) (hp.refuse _)
  have hbrace : s₁.past = -1 + s₁.advance.past := by
    rw [← State.before_advance, State.before_eq (s := s₁.advance) hp.eof, hnext]
    rfl
  have hbase : Call.block.base s₁.advance = s₁.past := by
    show s₁.advance.past - 1 = s₁.past
    omega
  have hblock := h _ .block s₁.advance b trivial hpast (hbase.symm ▸ hpast)
  refine hp.bind (hblock.imp fun r s₂ hr => ?_) hf
  have hkeeps : Keeps b (Call.block.base s₁.advance) s₁.advance r s₂ := hr
  rw [hbase] at hkeeps
  exact hkeeps.of_advance hp.le_before hpast

/-- The pairs after a first one are read on from the current token. -/
theorem pairs {f : List (Expr × Expr) → Parser β} (h : AllKeep call) (hp : Past b base s s₁)
    (hb : b ≤ base - 1)
    (hf : ∀ entries s₂, Past b (base - 1) s s₂ → Meets (f entries) s₂ (Keeps b (base - 1) s)) :
    Meets (call _ .pairs >>= f) s₁ (Keeps b (base - 1) s) := by
  have hleast := hp.least
  have hpairs := h _ .pairs s₁ b trivial hp.le_before (show b ≤ s₁.past - 1 by omega)
  have hkeeps (r : Option (List (Expr × Expr))) (s₂ : State) (hr : Keeps b (s₁.past - 1) s₁ r s₂) :
      Keeps b (base - 1) s r s₂ :=
    hp.keeps (s₁.past - 1) (by omega) hr
  exact hpairs.bind (fun s₂ _ hnone => hkeeps none s₂ hnone) fun entries s₂ _ hsome =>
    hf entries s₂ (hkeeps (some entries) s₂ hsome)

end AllKeep

theorem keeps_parametersBefore (h : AllKeep call) (hb : b ≤ s.before) (hb' : b ≤ s.past) :
    Meets (parametersBefore (call _ moreParameters)) s (Keeps b s.past s) := by
  refine Meets.withEof fun heof => ?_
  have hp := Past.start heof hb
  refine Meets.nextIs (Meets.ite (fun hclose => ?_) fun _ => ?_)
  · exact Meets.advance (Meets.pure (hp.advance hb' (by rw [eq_of_beq hclose]; rfl)))
  · refine hp.expect hb' rfl fun hp₁ => Meets.current ?_
    exact hp₁.bind (h _ moreParameters _ b trivial hp₁.le_before (hp₁.le_past hb'))
      fun _ _ hp₂ => Meets.pure hp₂

theorem keeps_operand (h : AllKeep call) (hb : b ≤ s.before) :
    Meets (body call _ operand) s (Keeps b s.before s) := by
  refine Meets.withEof fun heof => Meets.current ?_
  have hhere := Past.here heof hb
  cases hkind : s.current.kind <;> rw [hkind] at hhere
  case ident | float | string | kwTrue | kwFalse => exact Meets.pure (hhere rfl)
  case int =>
    cases Integer.ofDigits? s.current.literal with
    | some value => exact Meets.pure (hhere rfl)
    | none => exact Meets.refuse ((hhere rfl).refuse _)
  case minus | bang => exact h.expression (hhere rfl) hb fun _ _ hp => Meets.pure hp
  case lparen =>
    exact h.expression (hhere rfl) hb fun _ _ hp => hp.expect hb rfl fun hp₁ => Meets.pure hp₁
  case lbracket =>
    have hp := hhere rfl
    exact hp.bind (h _ (items .rbracket) s b rfl hb (hp.le_past hb)) fun _ _ hp₁ => Meets.pure hp₁
  case lbrace =>
    have hbase : s.before = s.past - 1 := by
      rw [State.before_eq heof, hkind, Token.Kind.closes]
      omega
    rw [hbase] at hb ⊢
    exact h.pairs (Past.start heof (hbase ▸ hb)) hb fun _ _ hp => Meets.pure hp
  case kwIf =>
    have hp := hhere rfl
    refine (h _ (conditional s.current) s b trivial hb (hp.le_past hb)).imp fun r s₁ hr => ?_
    exact hp.keeps s.past (by omega) hr
  case kwFn =>
    refine (hhere rfl).expect hb rfl fun hp => ?_
    refine hp.bind (keeps_parametersBefore h hp.le_before (hp.le_past hb)) fun _ _ hp₁ => ?_
    exact h.block hp₁ hb fun _ _ hp₂ => Meets.pure hp₂
  all_goals exact Meets.refuseOperand fun _ _ => ⟨.refl hb, Nat.lt_succ_self _⟩

theorem keeps_expression {p : Precedence} (h : AllKeep call) (hb : b ≤ s.before) :
    Meets (body call _ (expression p)) s (Keeps b s.before s) := by
  refine (h _ operand s b trivial hb hb).bind (fun _ _ hnone => hnone) fun left s₁ _ hp => ?_
  have hp : Past b s.before s s₁ := hp
  refine (h _ (operators p left) s₁ b trivial hp.le_before (hp.le_past hb)).imp fun r s₂ hr => ?_
  exact hp.keeps s₁.past (by omega) hr

theorem keeps_operators {p : Precedence} {left : Expr} (h : AllKeep call) (hb : b ≤ s.before)
    (hb' : b ≤ s.past) : Meets (body call _ (operators p left)) s (Keeps b s.past s) := by
  refine Meets.withEof fun heof => Meets.next ?_
  have hp := Past.start heof hb
  refine Meets.ite (fun hlevel => Meets.advance ?_) fun _ => Meets.pure hp
  -- what binds to an operand is no brace
  have hnext : s.next.kind.closes = 0 := by
    generalize s.next.kind = kind at hlevel
    cases kind <;> first | rfl | exact absurd hlevel (Nat.not_lt_zero _)
  have hp₁ := hp.advance hb' hnext
  refine hp₁.bind (h _ (operation s.next left) _ b trivial hp₁.le_before (hp₁.le_past hb')) ?_
  intro longer s₂ hp₂
  refine (h _ (operators p longer) s₂ b trivial hp₂.le_before (hp₂.le_past hb')).imp ?_
  exact fun r s₃ hr => hp₂.keeps s₂.past (by omega) hr

theorem keeps_operation {token : Token} {left : Expr} (h : AllKeep call) (hb : b ≤ s.before)
    (hb' : b ≤ s.past) : Meets (body call _ (operation token left)) s (Keeps b s.past s) := by
  refine Meets.withEof fun heof => ?_
  have hp := Past.start heof hb
  refine Meets.ite (fun _ => ?_) fun _ => Meets.ite (fun _ => ?_) fun _ => ?_
  · exact hp.bind (h _ (items .rparen) s b rfl hb hb') fun _ _ hp₁ => Meets.pure hp₁
  · exact h.expression hp hb' fun _ _ hp₁ => hp₁.expect hb' rfl fun hp₂ => Meets.pure hp₂
  · exact h.expression hp hb' fun _ _ hp₁ => Meets.pure hp₁

theorem keeps_conditional {token : Token} (h : AllKeep call) (hb : b ≤ s.before)
    (hb' : b ≤ s.past) : Meets (body call _ (conditional token)) s (Keeps b s.past s) := by
  refine Meets.withEof fun heof => (Past.start heof hb).expect hb' rfl fun hp => ?_
  refine h.expression hp hb' fun _ _ hp₁ => hp₁.expect hb' rfl fun hp₂ => ?_
  refine h.block hp₂ hb' fun _ _ hp₃ => Meets.nextIs ?_
  refine Meets.ite (fun helse => Meets.advance ?_) fun _ => Meets.pure hp₃
  have hp₄ := hp₃.advance hb' (by rw [eq_of_beq helse]; rfl)
  exact h.block hp₄ hb' fun _ _ hp₅ => Meets.pure hp₅

theorem keeps_items {close : Token.Kind} (hclose : close.closes = 0) (h : AllKeep call)
    (hb : b ≤ s.before) (hb' : b ≤ s.past) :
    Meets (body call _ (items close)) s (Keeps b s.past s) := by
  refine Meets.withEof fun heof => Meets.nextIs ?_
  have hp := Past.start heof hb
  refine Meets.ite (fun hnext => Meets.advance (Meets.pure ?_)) fun _ => ?_
  · exact hp.advance hb' (by rw [eq_of_beq hnext, hclose])
  · refine h.expression hp hb' fun _ s₁ hp₁ => ?_
    exact hp₁.bind (h _ (moreItems close) s₁ b hclose hp₁.le_before (hp₁.le_past hb'))
      fun _ _ hp₂ => Meets.pure hp₂

theorem keeps_moreItems {close : Token.Kind} (hclose : close.closes = 0) (h : AllKeep call)
    (hb : b ≤ s.before) (hb' : b ≤ s.past) :
    Meets (body call _ (moreItems close)) s (Keeps b s.past s) := by
  refine Meets.withEof fun heof => Meets.nextIs ?_
  have hp := Past.start heof hb
  refine Meets.ite (fun hcomma => Meets.advance ?_) fun _ => ?_
  · have hp₁ := hp.advance hb' (by rw [eq_of_beq hcomma]; rfl)
    refine h.expression hp₁ hb' fun _ s₂ hp₂ => ?_
    exact hp₂.bind (h _ (moreItems close) s₂ b hclose hp₂.le_before (hp₂.le_past hb'))
      fun _ _ hp₃ => Meets.pure hp₃
  · exact hp.expect hb' hclose fun hp₁ => Meets.pure hp₁

theorem keeps_moreParameters (h : AllKeep call) (hb : b ≤ s.before) (hb' : b ≤ s.past) :
    Meets (body call _ moreParameters) s (Keeps b s.past s) := by
  refine Meets.withEof fun heof => Meets.nextIs ?_
  have hp := Past.start heof hb
  refine Meets.ite (fun hcomma => Meets.advance ?_) fun _ => ?_
  · have hp₁ := hp.advance hb' (by rw [eq_of_beq hcomma]; rfl)
    refine hp₁.expect hb' rfl fun hp₂ => Meets.current ?_
    exact hp₂.bind (h _ moreParameters _ b trivial hp₂.le_before (hp₂.le_past hb'))
      fun _ _ hp₃ => Meets.pure hp₃
  · exact hp.expect hb' rfl fun hp₁ => Meets.pure hp₁

theorem keeps_pairs (h : AllKeep call) (hb : b ≤ s.before) (hb' : b ≤ s.past - 1) :
    Meets (body call _ pairs) s (Keeps b (s.past - 1) s) := by
  refine Meets.withEof fun heof => Meets.nextIs ?_
  have hp := Past.start heof hb
  have hpast : b ≤ s.past := by omega
  refine Meets.ite (fun hclose => Meets.advance (Meets.pure ?_)) fun _ => ?_
  · have hbrace : s.past = 1 + s.advance.past := by
      rw [← State.before_advance, State.before_eq (s := s.advance) heof, State.current_advance,
        eq_of_beq hclose]
      rfl
    exact ⟨heof, .tail hb hpast, Nat.le_refl _, by omega, fun _ => by omega⟩
  refine h.expression hp hpast fun _ _ hp₁ => hp₁.expect hpast rfl fun hp₂ => ?_
  refine h.expression hp₂ hpast fun _ _ hp₃ => Meets.nextIs (Meets.ite (fun _ => ?_) fun _ => ?_)
  · exact h.pairs hp₃ hb' fun _ _ hp₄ => Meets.pure hp₄
  · exact hp₃.expect hpast rfl fun hp₄ => h.pairs hp₄ hb' fun _ _ hp₅ => Meets.pure hp₅

theorem keeps_statement (h : AllKeep call) (hb : b ≤ s.before) :
    Meets (body call _ statement) s (Keeps b s.before s) := by
  refine Meets.withEof fun heof => Meets.current ?_
  have hhere := Past.here heof hb
  cases hkind : s.current.kind <;> rw [hkind] at hhere
  case kwLet =>
    refine (hhere rfl).expect hb rfl fun hp => Meets.current (hp.expect hb rfl fun hp₁ => ?_)
    exact h.expression hp₁ hb fun _ _ hp₂ => hp₂.terminator hb fun _ hp₃ => Meets.pure hp₃
  case kwReturn =>
    refine Meets.next (Meets.ite (fun _ => ?_) fun _ => ?_)
    · exact (hhere rfl).terminator hb fun _ hp => Meets.pure hp
    · exact h.expression (hhere rfl) hb fun _ _ hp => hp.terminator hb fun _ hp₁ => Meets.pure hp₁
  all_goals
    refine (h _ (expression .lowest) s b trivial hb hb).bind (fun _ _ hnone => hnone) ?_
    intro value s₁ _ hp
    have hp : Past b s.before s s₁ := hp
    refine Meets.nextIs (Meets.ite (fun hnext => Meets.advance (Meets.pure ?_)) fun _ => ?_)
    · exact hp.advance hb (by rw [eq_of_beq hnext]; rfl)
    · exact Meets.pure hp

/-- In a block, skipping stops at the first closing brace. -/
theorem staysAbove_recover (hopen : 0 < s.openBlocks) :
    Token.StaysAbove s.before s.ahead (recover s).ahead := by
  obtain ⟨skipped, hskipped, -, hnone⟩ := exists_skipped true false s.ahead
  have hstays := Token.StaysAbove.of_forall (skipStatement true false s.ahead) (hnone rfl)
  rw [← hskipped] at hstays
  rwa [recover, decide_eq_true hopen]

theorem keeps_statements (h : AllKeep call) (hopen : 0 < s.openBlocks) (hb : b ≤ s.before) :
    Meets (body call _ statements) s (statements.Levels b s) := by
  intro heof
  rw [exec_body_statements]
  split
  · exact ⟨.refl s, .refl hb, Int.le_refl _, fun _ => rfl⟩
  obtain ⟨hturn, hkeeps⟩ := h _ statement s s.before trivial (Int.le_refl _) (Int.le_refl _) heof
  rcases hr : exec (call _ statement) s with ⟨r, s₁⟩
  rw [hr] at hturn hkeeps
  dsimp only at hturn hkeeps
  have heof₁ : s₁.eof.kind = .eof := hturn.eof ▸ heof
  have hopen₁ : 0 < s₁.openBlocks := hturn.openBlocks.symm ▸ hopen
  cases r with
  | none =>
    -- recovery stops before the brace, and the diagnostic stays
    obtain ⟨habove, hreported⟩ : Token.StaysAbove s.before s.ahead s₁.ahead ∧ _ := hkeeps
    have hskip := staysAbove_recover hopen₁
    have hle : s.before ≤ (recover s₁).before := Int.le_trans habove.le_surplus hskip.le_surplus
    have hb₁ := Int.le_trans hb hle
    obtain ⟨hreaches, hstays, hleast, -⟩ := h _ statements (recover s₁) b hopen₁ hb₁ hb₁ heof₁
    have hreported₁ : s₁.reported.length ≤ _ := hreaches.length_reported_le
    have habove₁ := habove.weaken hb
    refine ⟨(hturn.trans (reaches_recover s₁)).trans hreaches,
      (habove₁.trans (hskip.weaken habove₁.le_surplus)).trans hstays, Int.le_trans hle hleast, ?_⟩
    exact fun hclean => absurd hclean (by dsimp only at hreported ⊢; omega)
  | some first =>
    have hp : Past s.before s.before s s₁ := hkeeps
    have hle : s.before ≤ s₁.advance.before := hp.least
    have hb₁ := Int.le_trans hb hle
    have hrest : Meets (do return first :: (← call _ statements)) s₁.advance
        (statements.Levels b s₁.advance) :=
      (h _ statements s₁.advance b hopen₁ hb₁ hb₁).bind (fun _ _ hnone => hnone)
        fun _ _ _ hsome => Meets.pure hsome
    obtain ⟨hreaches, hstays, hleast, hclean⟩ := hrest heof₁
    have hreported := hp.reported
    have hreported₁ : s₁.reported.length ≤ _ := hreaches.length_reported_le
    have htail := Token.StaysAbove.tail (Int.le_trans hb hp.le_before) hb₁
    refine ⟨(hturn.trans s₁.reaches_advance).trans hreaches,
      ((hp.above.weaken hb).trans htail).trans hstays, Int.le_trans hle hleast, fun heq => ?_⟩
    have hsame : s₁.reported.length = s.reported.length := by
      dsimp only at heq
      omega
    exact (hclean (heq.trans hsame.symm)).trans (hp.clean hsame)

/-- The statements of a block are read above the brace that opens it, and if they end at a token,
it is a closing brace. -/
theorem encloses_block (hstop : AllStop call) (h : AllKeep call) :
    Meets (body call _ block) s (Encloses s) := by
  intro heof
  obtain ⟨hreaches, habove, -, hclean⟩ :=
    h _ statements s.enter.advance s.past (Nat.succ_pos _) (Int.le_refl _) (Int.le_refl _) heof
  obtain ⟨-, hsome, hend⟩ := hstop _ statements s.enter.advance trivial heof
  rw [exec_body_block]
  rcases hr : exec (call _ statements) s.enter.advance with ⟨_ | body, s₁⟩ <;>
    rw [hr] at hreaches habove hclean hsome hend
  · cases hsome
  have hreported : s.reported.length ≤ s₁.reported.length := hreaches.length_reported_le
  dsimp only
  split
  · refine ⟨(reaches_leave hreaches).trans (State.reaches_report _ _), habove, ?_⟩
    exact Nat.lt_succ_of_le hreported
  · next hkind =>
    exact ⟨reaches_leave hreaches, habove, rbrace_of_atEnd (s := s₁) hend hkind, hclean⟩

theorem keeps_block (hstop : AllStop call) (h : AllKeep call) (hb : b ≤ s.before)
    (hb' : b ≤ s.past - 1) : Meets (body call _ block) s (Keeps b (s.past - 1) s) := by
  intro heof
  obtain ⟨hreaches, habove, hends⟩ := encloses_block hstop h heof
  have htail : Token.StaysAbove b s.ahead s.ahead.tail := .tail hb (show b ≤ s.past by omega)
  have hinside := htail.trans (habove.weaken (show b ≤ s.past by omega))
  refine ⟨hreaches, ?_⟩
  rcases hr : exec (body call _ block) s with ⟨r, s₁⟩
  rw [hr] at hreaches habove hends hinside
  dsimp only at *
  cases r with
  | none => exact ⟨hinside, hends⟩
  | some body =>
    have heof₁ : s₁.eof.kind = .eof := hreaches.eof ▸ heof
    have hlast : s₁.before = 1 + s₁.past := by
      rw [State.before_eq heof₁, hends.1]
      rfl
    have hleast : s.past ≤ s₁.before := habove.le_surplus
    refine ⟨heof₁, hinside, hreaches.length_reported_le, by omega, fun heq => ?_⟩
    have hclean := hends.2 heq
    omega

theorem allKeep_body (hstop : AllStop call) (h : AllKeep call) : AllKeep (body call) := by
  intro α c s b hc hb hb'
  cases c with
  | expression p => exact keeps_expression h hb
  | operators p left => exact keeps_operators h hb hb'
  | operation token left => exact keeps_operation h hb hb'
  | operand => exact keeps_operand h hb
  | conditional token => exact keeps_conditional h hb hb'
  | items close => exact keeps_items hc h hb hb'
  | moreItems close => exact keeps_moreItems hc h hb hb'
  | pairs => exact keeps_pairs h hb hb'
  | block => exact keeps_block hstop h hb hb'
  | statements => exact keeps_statements h hc hb
  | statement => exact keeps_statement h hb
  | moreParameters => exact keeps_moreParameters h hb hb'

end

/-- A block that is read ends on a brace, above the one that opens it. -/
theorem Ends.encloses {s s' : State} {body : Block} (h : block.Ends s (some body, s'))
    (heof : s.eof.kind = .eof) : Encloses s (some body) s' := by
  obtain ⟨call, ⟨hstop, hkeep⟩, hr⟩ := h.induct (P := fun call => AllStop call ∧ AllKeep call)
    ⟨allStop_giveUp, allKeep_giveUp⟩ fun _ h => ⟨allStop_body h.1, allKeep_body h.1 h.2⟩
  have hencloses := (encloses_block hstop hkeep heof).2
  rwa [← hr] at hencloses

end Call

/-! ## The end of a block -/

/-- **Where a block ends.** A block is read from the opening brace at `i`, with or without
diagnostics, and ends at `j`. At `j` there is a closing brace, and it does not come after the one
that is paired with the brace at `i`. It is that one just if between them as many braces are
closed as are opened, and this is so if nothing has been reported. -/
theorem block_ends_on_partner_iff (source : String) {i : Nat} {s s' : State} {body : Block}
    (hs : s.ahead = (Token.scan source).tokens.drop i) (heof : s.eof = (Token.scan source).eof)
    (h : Call.block.Ends s (some body, s')) :
    let tokens := (Token.scan source).tokens
    ∃ j, i < j ∧ s'.ahead = tokens.drop j ∧ tokens[j]? = some s'.current ∧
      s'.current.kind = .rbrace ∧
      (∀ k, Token.partner tokens i = some k → j ≤ k) ∧
      (Token.partner tokens i = some j ↔
        Token.surplus ((tokens.drop (i + 1)).take (j - (i + 1))) = 0) ∧
      (s'.reported = s.reported → Token.partner tokens i = some j) := by
  intro tokens
  have hkind : s.eof.kind = .eof := heof ▸ Token.kind_eof_scan source
  have hkind' : s'.eof.kind = .eof := (h.reaches hkind).eof ▸ hkind
  obtain ⟨habove, hclose, hclean⟩ := h.encloses hkind
  have hpast : s.past = Token.surplus s.ahead.tail := rfl
  have htail : s.ahead.tail = tokens.drop (i + 1) := by rw [hs, List.tail_drop]
  rw [hpast, htail] at habove hclean
  obtain ⟨k, hk⟩ : ∃ k, s'.ahead = tokens.drop (i + 1 + k) :=
    ⟨_, by rw [← List.drop_drop]; exact List.suffix_iff_eq_drop.mp habove.1⟩
  have hget : tokens[i + 1 + k]? = some s'.current := by
    have hne := State.ahead_ne_nil_of_current hkind' (by rw [hclose]; decide)
    obtain ⟨t, rest, hahead⟩ := List.exists_cons_of_ne_nil hne
    rw [← List.head?_drop, ← hk, State.current, hahead]
    rfl
  rw [hk] at habove
  refine ⟨i + 1 + k, by omega, hk, hget, hclose, fun j hj => Token.le_of_partner hj habove, ?_, ?_⟩
  · rw [Nat.add_sub_cancel_left]
    exact Token.partner_iff habove hget hclose
  · intro hsame
    refine (Token.partner_iff habove hget hclose).mpr ?_
    have hbefore : Token.surplus s'.ahead = _ := hclean (by rw [hsame])
    rw [hk, ← List.drop_drop] at hbefore
    have hsum := Token.surplus_append ((tokens.drop (i + 1)).take k) ((tokens.drop (i + 1)).drop k)
    rw [List.take_append_drop] at hsum
    omega

/-- Stands on the token at `i` of a text. -/
def State.atToken (source : String) (i : Nat) : State :=
  ⟨(Token.scan source).tokens.drop i, (Token.scan source).eof, 0, []⟩

theorem exists_ends_block (source : String) (i : Nat)
    (h : (exec (Call.bounded (State.atToken source i).reach _ .block)
      (.atToken source i)).1.isSome) :
    ∃ body, Call.block.Ends (.atToken source i) (some body,
      (exec (Call.bounded (State.atToken source i).reach _ .block) (.atToken source i)).2) := by
  obtain ⟨body, hbody⟩ := Option.isSome_iff_exists.mp h
  have hends := Call.block.ends_bounded (s := .atToken source i) (Token.kind_eof_scan source)
  rw [← Prod.eta (exec _ _), hbody] at hends
  exact ⟨body, hends⟩

/-- A hash that is well-formed does not end the block that it stands in. -/
theorem block_ends_on_partner_hash :
    ∃ body s', Call.block.Ends (.atToken "fn() \x7b \x7b1: 2\x7d \x7d" 3) (some body, s') ∧
      s'.ahead = (Token.scan "fn() \x7b \x7b1: 2\x7d \x7d").tokens.drop 9 := by
  obtain ⟨body, hends⟩ :=
    exists_ends_block "fn() \x7b \x7b1: 2\x7d \x7d" 3 (by decide +kernel)
  obtain ⟨j, -, hahead, -, -, -, -, hclean⟩ :=
    block_ends_on_partner_iff "fn() \x7b \x7b1: 2\x7d \x7d" (i := 3) rfl rfl hends
  have hj : Token.partner _ 3 = some j := hclean (by decide +kernel)
  have hnine : Token.partner (Token.scan "fn() \x7b \x7b1: 2\x7d \x7d").tokens 3 = some 9 := by
    decide +kernel
  refine ⟨body, _, hends, ?_⟩
  rw [hahead, Option.some.inj (hj.symm.trans hnine)]

/-- A malformed hash ends the block that it stands in: the block is left at the brace of the hash,
and its own brace is refused. -/
theorem block_ends_on_inner_brace :
    let source := "fn() \x7b \x7b1 2\x7d \x7d"
    (∃ body s', Call.block.Ends (.atToken source 3) (some body, s') ∧
      s'.ahead = (Token.scan source).tokens.drop 7) ∧
    Token.partner (Token.scan source).tokens 3 = some 8 ∧
    (parse source).diagnostics.map Diagnostic.message =
      ["1:11: expected next token to be COLON, got INT (\"2\") instead",
        "1:14: no prefix parse function for RBRACE (\"\x7d\") found"] := by
  intro source
  refine ⟨?_, by decide +kernel, by decide +kernel⟩
  obtain ⟨body, hends⟩ := exists_ends_block source 3 (by decide +kernel)
  exact ⟨body, _, hends, by decide +kernel⟩

end Parser

end Monkey
