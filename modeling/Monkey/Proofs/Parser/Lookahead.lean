import Monkey.Proofs.Parser.Recovery

/-!
# Nothing is read ahead of a semicolon

Tokens that end with a semicolon are read in the same way whatever comes after them. A parser
looks at the token after the current one only if the current one is not a semicolon, and it
moves on from the last semicolon only in the loop over statements. So what a parser does is the
same when more tokens follow (`Sealed`), unless it has come to the end of the tokens. That
happens only to a parser that fails, inside of a block that is not closed.

This is shown for all parsers at once (`Call.allSeal_body`), by what each does itself. For a
statement it gives `Call.Ends.extend`.
-/

namespace Monkey

/-- Tokens of which the last one is a semicolon. -/
def Token.Terminated (ts : List Token) : Prop := ∃ t, ts.getLast? = some t ∧ t.kind = .semicolon

namespace Token.Terminated

variable {t : Token} {ts ts' : List Token}

theorem ne_nil (h : Terminated ts) : ts ≠ [] := by
  rintro rfl
  obtain ⟨t, ht, -⟩ := h
  cases ht

theorem suffix (h : Terminated ts) (hsuffix : ts' <:+ ts) (hne : ts' ≠ []) : Terminated ts' := by
  obtain ⟨t, ht, hkind⟩ := h
  obtain ⟨front, rfl⟩ := hsuffix
  refine ⟨t, ?_, hkind⟩
  rw [List.getLast?_append, List.getLast?_eq_some_getLast hne] at ht
  rwa [List.getLast?_eq_some_getLast hne]

/-- A token that is no semicolon is not the last one. -/
theorem tail (h : Terminated (t :: ts)) (ht : t.kind ≠ .semicolon) : Terminated ts := by
  cases ts with
  | nil =>
    obtain ⟨u, hu, hkind⟩ := h
    cases hu
    exact absurd hkind ht
  | cons u us => exact h.suffix (List.suffix_cons t _) (List.cons_ne_nil u us)

end Token.Terminated

namespace Parser

open Token (Terminated)

variable {α β : Type} {rest : List Token} {eof : Token}

/-! ## States with more tokens -/

/-- The same state, where more tokens follow. -/
def State.extend (rest : List Token) (eof : Token) (s : State) : State :=
  { s with ahead := s.ahead ++ rest, eof := eof }

namespace State

variable {s : State}

theorem current_extend (h : s.ahead ≠ []) : (s.extend rest eof).current = s.current := by
  obtain ⟨t, ts, hts⟩ := List.exists_cons_of_ne_nil h
  simp only [current, extend, hts, List.cons_append, List.headD_cons]

theorem advance_extend (h : s.ahead ≠ []) :
    (s.extend rest eof).advance = s.advance.extend rest eof := by
  rw [advance, advance, extend, extend, List.tail_append_of_ne_nil h]

theorem terminated_advance (h : Terminated s.ahead) (hs : s.current.kind ≠ .semicolon) :
    Terminated s.advance.ahead := by
  obtain ⟨t, ts, hts⟩ := List.exists_cons_of_ne_nil h.ne_nil
  rw [current, hts] at hs
  rw [hts] at h
  rw [advance, hts]
  exact h.tail hs

theorem next_extend (h : Terminated s.ahead) (hs : s.current.kind ≠ .semicolon) :
    (s.extend rest eof).next = s.next := by
  rw [← current_advance, advance_extend h.ne_nil,
    current_extend (terminated_advance h hs).ne_nil, current_advance]

theorem atEnd_extend (h : s.ahead ≠ []) : (s.extend rest eof).atEnd = s.atEnd := by
  rw [atEnd, current_extend h]
  rfl

end State

/-- Skipping stops after a semicolon, if not before. -/
theorem skipStatement_append (inBlock moved : Bool) {ts : List Token} (h : Terminated ts) :
    skipStatement inBlock moved (ts ++ rest) = skipStatement inBlock moved ts ++ rest := by
  fun_induction skipStatement inBlock moved ts with
  | case1 => exact absurd rfl h.ne_nil
  | case2 moved token ts hbrace => exact if_pos hbrace
  | case3 moved token ts hbrace hkeyword => exact (if_neg hbrace).trans (if_pos hkeyword)
  | case4 moved token ts hbrace hkeyword hsemicolon =>
    exact (if_neg hbrace).trans ((if_neg hkeyword).trans (if_pos hsemicolon))
  | case5 moved token ts hbrace hkeyword hsemicolon ih =>
    refine (if_neg hbrace).trans ((if_neg hkeyword).trans ((if_neg hsemicolon).trans ?_))
    exact ih (h.tail hsemicolon)

theorem recover_extend {s : State} (h : Terminated s.ahead) :
    recover (s.extend rest eof) = (recover s).extend rest eof := by
  rw [recover, State.extend, skipStatement_append _ _ h]
  rfl

/-! ## Parsers that do not look further -/

variable (rest eof) in
/-- From a state whose tokens end with a semicolon, a parser does the same when more tokens
follow, and where it gives a result `Q` holds. Or else it has come to the end of the tokens and
failed, and there was a brace among them. -/
def Sealed (Q : State → Prop) (x : Parser α) (s : State) : Prop :=
  s.eof.kind = .eof → Terminated s.ahead → s.Reaches (exec x s).2 ∧
    ((exec x s).2.ahead ≠ [] ∧
        exec x (s.extend rest eof) = ((exec x s).1, (exec x s).2.extend rest eof) ∧
        ((exec x s).1.isSome → Q (exec x s).2) ∨
      (exec x s).2.ahead = [] ∧ (exec x s).1 = none ∧ ∃ t ∈ s.ahead, t.kind = .lbrace)

namespace Sealed

variable {Q Q' : State → Prop} {x y : Parser α} {f : α → Parser β} {s : State}

theorem pure {a : α} (h : Q s) : Sealed rest eof Q (Pure.pure a) s :=
  fun _ hts => ⟨.refl s, Or.inl ⟨hts.ne_nil, rfl, fun _ => h⟩⟩

theorem refuse (d : Diagnostic) : Sealed rest eof Q (Parser.refuse d : Parser α) s :=
  fun _ hts => ⟨s.reaches_report d, Or.inl ⟨hts.ne_nil, rfl, fun h => nomatch h⟩⟩

theorem bind (hx : Sealed rest eof Q x s) (hf : ∀ a s₁, Q s₁ → Sealed rest eof Q' (f a) s₁) :
    Sealed rest eof Q' (x >>= f) s := by
  intro heof hts
  obtain ⟨hreaches, hends⟩ := hx heof hts
  rw [exec_bind, exec_bind]
  rcases hr : exec x s with ⟨_ | a, s₁⟩ <;> rw [hr] at hreaches hends
  · rcases hends with ⟨hne, hextend, -⟩ | hends
    · rw [hextend]
      exact ⟨hreaches, Or.inl ⟨hne, rfl, fun hnone => nomatch hnone⟩⟩
    · exact ⟨hreaches, Or.inr ⟨hends.1, rfl, hends.2.2⟩⟩
  · obtain ⟨hne, hextend, hQ⟩ := hends.resolve_right fun h => nomatch h.2.1
    obtain ⟨hreaches', hends'⟩ :=
      hf a s₁ (hQ rfl) (hreaches.eof ▸ heof) (hts.suffix hreaches.ahead hne)
    rw [hextend]
    refine ⟨hreaches.trans hreaches', hends'.imp id ?_⟩
    rintro ⟨hnil, hnone, t, ht, hkind⟩
    exact ⟨hnil, hnone, t, hreaches.ahead.subset ht, hkind⟩

theorem ite {c : Prop} [Decidable c] (ht : c → Sealed rest eof Q x s)
    (hf : ¬c → Sealed rest eof Q y s) : Sealed rest eof Q (if c then x else y) s := by
  split
  · next h => exact ht h
  · next h => exact hf h

/-- It is enough to know the runs from the state and from the longer one. -/
theorem congr (h : Sealed rest eof Q y s) (hx : exec x s = exec y s)
    (hx' : Terminated s.ahead → exec x (s.extend rest eof) = exec y (s.extend rest eof)) :
    Sealed rest eof Q x s := by
  intro heof hts
  rw [hx, hx' hts]
  exact h heof hts

theorem current {f : Token → Parser β} (h : Sealed rest eof Q (f s.current) s) :
    Sealed rest eof Q (Parser.current >>= f) s := by
  refine h.congr rfl fun hts => ?_
  rw [← State.current_extend hts.ne_nil]
  rfl

theorem next {f : Token → Parser β} (hs : s.current.kind ≠ .semicolon)
    (h : Sealed rest eof Q (f s.next) s) : Sealed rest eof Q (Parser.next >>= f) s := by
  refine h.congr rfl fun hts => ?_
  rw [← State.next_extend hts hs]
  rfl

theorem nextIs {kind : Token.Kind} {f : Bool → Parser β} (hs : s.current.kind ≠ .semicolon)
    (h : Sealed rest eof Q (f (s.next.kind == kind)) s) :
    Sealed rest eof Q (Parser.nextIs kind >>= f) s :=
  (next hs h : Sealed rest eof Q (Parser.next >>= fun token => f (token.kind == kind)) s)

theorem advance {f : Unit → Parser β} (hs : s.current.kind ≠ .semicolon)
    (h : Sealed rest eof Q (f ()) s.advance) : Sealed rest eof Q (Parser.advance >>= f) s := by
  intro heof hts
  obtain ⟨hreaches, hends⟩ := h heof (State.terminated_advance hts hs)
  have hlonger : exec (Parser.advance >>= f) (s.extend rest eof) =
      exec (f ()) (s.advance.extend rest eof) := by
    rw [← State.advance_extend hts.ne_nil]
    rfl
  rw [hlonger]
  refine ⟨s.reaches_advance.trans hreaches, hends.imp id ?_⟩
  rintro ⟨hnil, hnone, t, ht, hkind⟩
  exact ⟨hnil, hnone, t, s.reaches_advance.ahead.subset ht, hkind⟩

theorem refuse_bind (d : Diagnostic) : Sealed rest eof Q' (Parser.refuse d >>= f) s :=
  (refuse d).congr rfl fun _ => rfl

theorem refuseOperand : Sealed rest eof Q (Parser.refuseOperand : Parser α) s :=
  current (refuse _)

theorem expect {kind : Token.Kind} {f : Unit → Parser β} (hs : s.current.kind ≠ .semicolon)
    (h : s.advance.current.kind = kind → Sealed rest eof Q (f ()) s.advance) :
    Sealed rest eof Q (Parser.expect kind >>= f) s := by
  have hnext : Sealed rest eof Q (Parser.next >>= fun token =>
      (if token.kind = kind then Parser.advance else Parser.refuse (.unexpected kind token)) >>= f)
      s := by
    refine next hs ?_
    split
    · next hkind => exact advance hs (h hkind)
    · exact refuse_bind _
  exact hnext

theorem terminator {f : Unit → Parser β} (hs : s.current.kind ≠ .semicolon)
    (h : ∀ s₁, Sealed rest eof Q (f ()) s₁) : Sealed rest eof Q (Parser.terminator >>= f) s := by
  have hnext : Sealed rest eof Q (Parser.next >>= fun token =>
      (if token.kind = .semicolon then Parser.advance
        else if token.kind = .rbrace ∨ token.kind = .eof then Pure.pure ()
        else Parser.refuse (.unexpected .semicolon token)) >>= f) s := by
    refine next hs ?_
    split
    · exact advance hs (h _)
    split
    · exact h s
    · exact refuse_bind _
  exact hnext

end Sealed

namespace Call

/-- Where the parser of a call may be started. One that goes on after a token that has been read
does not stand on a semicolon, and a block starts at its brace. The loop over statements is a case
of its own. -/
def Prepared : {α : Type} → Call α → State → Prop
  | _, operators _ _, s | _, operation _ _, s | _, pairs, s | _, conditional _, s
  | _, moreParameters, s => s.current.kind ≠ .semicolon
  | _, items close, s | _, moreItems close, s => close ≠ .semicolon ∧ s.current.kind ≠ .semicolon
  | _, block, s => s.current.kind = .lbrace
  | _, statements, _ => False
  | _, _, _ => True

/-- Where a parser stands that has given a result. Only a statement takes its semicolon. -/
def Leaves : {α : Type} → Call α → State → Prop
  | _, statement, _ => True
  | _, _, s => s.current.kind ≠ .semicolon

variable (rest eof) in
/-- Every call does the same when more tokens follow. The loop over statements does so if it stops
before all tokens are read. -/
structure AllSeal (call : Handler) : Prop where
  one : ∀ {α : Type} (c : Call α) (s : State), c.Prepared s →
    Sealed rest eof c.Leaves (call α c) s
  loop : ∀ s : State, s.eof.kind = .eof → s.ahead = [] ∨ Terminated s.ahead →
    (exec (call _ statements) s).2.ahead ≠ [] →
      exec (call _ statements) (s.extend rest eof) =
        ((exec (call _ statements) s).1, (exec (call _ statements) s).2.extend rest eof)

theorem skipToEnd_extend {s : State} (h : (skipToEnd s).ahead ≠ []) :
    skipToEnd (s.extend rest eof) = (skipToEnd s).extend rest eof := by
  have hne : s.ahead ≠ [] := fun hnil => h (by rw [skipToEnd, hnil]; rfl)
  rw [skipToEnd, State.current_extend hne]
  show State.report (State.on _ ((s.ahead ++ rest).dropWhile _)) _ = _
  rw [List.dropWhile_append, if_neg]
  · rfl
  · rw [List.isEmpty_iff]
    exact h

theorem allSeal_giveUp : AllSeal rest eof giveUp where
  one c s hs := by
    cases c with
    | statements => cases hs
    | _ => exact Sealed.refuseOperand
  loop s _ _ hne := by
    show (some [], skipToEnd (s.extend rest eof)) = _
    rw [skipToEnd_extend hne]
    rfl

section

variable {call : Handler} {s : State}

theorem sealed_parametersBefore (h : AllSeal rest eof call) (hs : s.current.kind ≠ .semicolon) :
    Sealed rest eof moreParameters.Leaves (parametersBefore (call _ moreParameters)) s := by
  refine Sealed.nextIs hs (Sealed.ite (fun hclose => ?_) fun _ => ?_)
  · refine Sealed.advance hs (Sealed.pure ?_)
    show s.next.kind ≠ .semicolon
    rw [eq_of_beq hclose]
    decide
  · refine Sealed.expect hs fun hname => Sealed.current ?_
    exact (h.one moreParameters _ (show _ ≠ _ by rw [hname]; decide)).bind fun _ _ hs₁ =>
      Sealed.pure hs₁

theorem sealed_operand (h : AllSeal rest eof call) :
    Sealed rest eof operand.Leaves (body call _ operand) s := by
  refine Sealed.current ?_
  by_cases hsemicolon : s.current.kind = .semicolon
  · rw [hsemicolon]
    exact Sealed.refuseOperand
  have hs : s.current.kind ≠ .semicolon := hsemicolon
  cases hkind : s.current.kind
  case ident | float | string | kwTrue | kwFalse => exact Sealed.pure hs
  case int =>
    cases Integer.ofDigits? s.current.literal with
    | some value => exact Sealed.pure hs
    | none => exact Sealed.refuse _
  case minus | bang =>
    exact Sealed.advance hs ((h.one (expression .unary) _ trivial).bind fun _ _ hs₁ =>
      Sealed.pure hs₁)
  case lparen =>
    refine Sealed.advance hs ((h.one (expression .lowest) _ trivial).bind fun _ _ hs₁ => ?_)
    exact Sealed.expect hs₁ fun hclose => Sealed.pure (show _ ≠ _ by rw [hclose]; decide)
  case lbracket =>
    exact (h.one (items .rbracket) s ⟨by decide, hs⟩).bind fun _ _ hs₁ => Sealed.pure hs₁
  case lbrace => exact (h.one pairs s hs).bind fun _ _ hs₁ => Sealed.pure hs₁
  case kwIf => exact h.one (conditional s.current) s hs
  case kwFn =>
    refine Sealed.expect hs fun hopen => ?_
    refine (sealed_parametersBefore h (by rw [hopen]; decide)).bind fun _ _ hs₁ => ?_
    refine Sealed.expect hs₁ fun hbrace => (h.one block _ hbrace).bind fun _ _ hs₂ => ?_
    exact Sealed.pure hs₂
  all_goals exact Sealed.refuseOperand

theorem sealed_operators {p : Precedence} {left : Expr} (h : AllSeal rest eof call)
    (hs : s.current.kind ≠ .semicolon) :
    Sealed rest eof (operators p left).Leaves (body call _ (operators p left)) s := by
  refine Sealed.next hs (Sealed.ite (fun hlevel => Sealed.advance hs ?_) fun _ => Sealed.pure hs)
  -- a semicolon binds to no operand
  have hnext : s.next.kind ≠ .semicolon := by
    intro hsemicolon
    rw [hsemicolon] at hlevel
    exact Nat.not_lt_zero _ hlevel
  exact (h.one (operation s.next left) s.advance hnext).bind fun longer s₁ hs₁ =>
    h.one (operators p longer) s₁ hs₁

theorem sealed_operation {token : Token} {left : Expr} (h : AllSeal rest eof call)
    (hs : s.current.kind ≠ .semicolon) :
    Sealed rest eof (operation token left).Leaves (body call _ (operation token left)) s := by
  refine Sealed.ite (fun _ => ?_) fun _ => Sealed.ite (fun _ => ?_) fun _ => ?_
  · exact (h.one (items .rparen) s ⟨by decide, hs⟩).bind fun _ _ hs₁ => Sealed.pure hs₁
  · refine Sealed.advance hs ((h.one (expression .lowest) _ trivial).bind fun _ _ hs₁ => ?_)
    exact Sealed.expect hs₁ fun hclose => Sealed.pure (show _ ≠ _ by rw [hclose]; decide)
  · exact Sealed.advance hs ((h.one (expression (.ofKind token.kind)) s.advance trivial).bind
      fun _ _ hs₁ => Sealed.pure hs₁)

theorem sealed_conditional {token : Token} (h : AllSeal rest eof call)
    (hs : s.current.kind ≠ .semicolon) :
    Sealed rest eof (conditional token).Leaves (body call _ (conditional token)) s := by
  refine Sealed.expect hs fun hopen => Sealed.advance (by rw [hopen]; decide) ?_
  refine (h.one (expression .lowest) _ trivial).bind fun _ _ hs₁ => ?_
  refine Sealed.expect hs₁ fun hclose => Sealed.expect (by rw [hclose]; decide) fun hbrace => ?_
  refine (h.one block _ hbrace).bind fun _ s₂ hs₂ => Sealed.nextIs hs₂ ?_
  refine Sealed.ite (fun helse => Sealed.advance hs₂ ?_) fun _ => Sealed.pure hs₂
  have helse' : s₂.advance.current.kind = .kwElse := eq_of_beq helse
  refine Sealed.expect (by rw [helse']; decide) fun hbrace' => ?_
  exact (h.one block _ hbrace').bind fun _ _ hs₃ => Sealed.pure hs₃

theorem sealed_items {close : Token.Kind} (hclose : close ≠ .semicolon) (h : AllSeal rest eof call)
    (hs : s.current.kind ≠ .semicolon) :
    Sealed rest eof (items close).Leaves (body call _ (items close)) s := by
  refine Sealed.nextIs hs (Sealed.ite (fun hnext => ?_) fun _ => ?_)
  · refine Sealed.advance hs (Sealed.pure ?_)
    show s.next.kind ≠ .semicolon
    rwa [eq_of_beq hnext]
  · refine Sealed.advance hs ((h.one (expression .lowest) _ trivial).bind fun _ s₁ hs₁ => ?_)
    exact (h.one (moreItems close) s₁ ⟨hclose, hs₁⟩).bind fun _ _ hs₂ => Sealed.pure hs₂

theorem sealed_moreItems {close : Token.Kind} (hclose : close ≠ .semicolon)
    (h : AllSeal rest eof call) (hs : s.current.kind ≠ .semicolon) :
    Sealed rest eof (moreItems close).Leaves (body call _ (moreItems close)) s := by
  refine Sealed.nextIs hs (Sealed.ite (fun hcomma => Sealed.advance hs ?_) fun _ => ?_)
  · have hcomma' : s.advance.current.kind = .comma := eq_of_beq hcomma
    refine Sealed.advance (by rw [hcomma']; decide) ?_
    refine (h.one (expression .lowest) _ trivial).bind fun _ s₁ hs₁ => ?_
    exact (h.one (moreItems close) s₁ ⟨hclose, hs₁⟩).bind fun _ _ hs₂ => Sealed.pure hs₂
  · exact Sealed.expect hs fun hnext => Sealed.pure (show _ ≠ _ by rwa [hnext])

theorem sealed_moreParameters (h : AllSeal rest eof call) (hs : s.current.kind ≠ .semicolon) :
    Sealed rest eof moreParameters.Leaves (body call _ moreParameters) s := by
  refine Sealed.nextIs hs (Sealed.ite (fun hcomma => Sealed.advance hs ?_) fun _ => ?_)
  · have hcomma' : s.advance.current.kind = .comma := eq_of_beq hcomma
    refine Sealed.expect (by rw [hcomma']; decide) fun hname => Sealed.current ?_
    exact (h.one moreParameters _ (show _ ≠ _ by rw [hname]; decide)).bind fun _ _ hs₁ =>
      Sealed.pure hs₁
  · exact Sealed.expect hs fun hnext => Sealed.pure (show _ ≠ _ by rw [hnext]; decide)

theorem sealed_pairs (h : AllSeal rest eof call) (hs : s.current.kind ≠ .semicolon) :
    Sealed rest eof pairs.Leaves (body call _ pairs) s := by
  refine Sealed.nextIs hs (Sealed.ite (fun hclose => ?_) fun _ => ?_)
  · refine Sealed.advance hs (Sealed.pure ?_)
    show s.next.kind ≠ .semicolon
    rw [eq_of_beq hclose]
    decide
  refine Sealed.advance hs ((h.one (expression .lowest) _ trivial).bind fun _ _ hs₁ => ?_)
  refine Sealed.expect hs₁ fun hcolon => Sealed.advance (by rw [hcolon]; decide) ?_
  refine (h.one (expression .lowest) _ trivial).bind fun _ s₂ hs₂ => Sealed.nextIs hs₂ ?_
  refine Sealed.ite (fun _ => ?_) fun _ => Sealed.expect hs₂ fun hcomma => ?_
  · exact (h.one pairs s₂ hs₂).bind fun _ _ hs₃ => Sealed.pure hs₃
  · exact (h.one pairs _ (show _ ≠ _ by rw [hcomma]; decide)).bind fun _ _ hs₃ => Sealed.pure hs₃

theorem sealed_statement (h : AllSeal rest eof call) :
    Sealed rest eof statement.Leaves (body call _ statement) s := by
  have hend {s₁ : State} {st : Stmt} (hs₁ : s₁.current.kind ≠ .semicolon) :
      Sealed rest eof statement.Leaves (do terminator; return st) s₁ :=
    Sealed.terminator hs₁ fun _ => Sealed.pure trivial
  refine Sealed.current ?_
  cases hkind : s.current.kind
  case kwLet =>
    refine Sealed.expect (by rw [hkind]; decide) fun hname => Sealed.current ?_
    refine Sealed.expect (by rw [hname]; decide) fun hassign => ?_
    refine Sealed.advance (by rw [hassign]; decide) ?_
    exact (h.one (expression .lowest) _ trivial).bind fun _ _ hs₁ => hend hs₁
  case kwReturn =>
    have hs : s.current.kind ≠ .semicolon := by
      rw [hkind]
      decide
    refine Sealed.next hs (Sealed.ite (fun _ => hend hs) fun _ => Sealed.advance hs ?_)
    exact (h.one (expression .lowest) _ trivial).bind fun _ _ hs₁ => hend hs₁
  all_goals
    refine (h.one (expression .lowest) s trivial).bind fun _ _ hs₁ => Sealed.nextIs hs₁ ?_
    exact Sealed.ite (fun _ => Sealed.advance hs₁ (Sealed.pure trivial))
      fun _ => Sealed.pure trivial

/-- A block comes to the end of the tokens only if it is not closed, and then it fails. -/
theorem sealed_block (hstop : AllStop call) (h : AllSeal rest eof call)
    (hs : s.current.kind = .lbrace) : Sealed rest eof block.Leaves (body call _ block) s := by
  intro heof hts
  have hinside : Terminated s.enter.advance.ahead := by
    refine State.terminated_advance (s := s.enter) hts ?_
    rw [show s.enter.current.kind = .lbrace from hs]
    decide
  obtain ⟨hreaches, hsome, hend⟩ := hstop _ statements s.enter.advance trivial heof
  have hloop := h.loop s.enter.advance heof (Or.inr hinside)
  rcases hr : exec (call _ statements) s.enter.advance with ⟨_ | body, s₁⟩ <;>
    rw [hr] at hreaches hsome hend hloop
  · cases hsome
  have hreaches' : s.Reaches s₁.leave := reaches_leave hreaches
  have hexec := exec_body_block call s
  rw [hr] at hexec
  dsimp only at hexec
  by_cases hnil : s₁.ahead = []
  · -- the tokens have ended, and the brace of the block is among them
    have hkind : s₁.leave.current.kind = .eof := by
      show (s₁.ahead.headD s₁.eof).kind = .eof
      rw [hnil, List.headD_nil, hreaches.eof]
      exact heof
    rw [if_pos hkind] at hexec
    rw [hexec]
    refine ⟨hreaches'.trans (State.reaches_report _ _), Or.inr ⟨hnil, rfl, ?_⟩⟩
    obtain ⟨t, ts, hahead⟩ := List.exists_cons_of_ne_nil hts.ne_nil
    rw [State.current, hahead] at hs
    exact ⟨t, by rw [hahead]; exact List.mem_cons_self .., hs⟩
  · have hlonger : (s.extend rest eof).enter.advance = s.enter.advance.extend rest eof :=
      State.advance_extend (s := s.enter) hts.ne_nil
    have hcurrent : (s₁.extend rest eof).leave.current = s₁.leave.current :=
      State.current_extend (s := s₁.leave) hnil
    have hexec' := exec_body_block call (s.extend rest eof)
    rw [hlonger, hloop hnil, State.current_extend hts.ne_nil] at hexec'
    dsimp only at hexec'
    rw [hcurrent] at hexec'
    rw [hexec, hexec']
    split
    · exact ⟨hreaches'.trans (State.reaches_report _ _),
        Or.inl ⟨hnil, rfl, fun hnone => by cases hnone⟩⟩
    · next hkind =>
      refine ⟨hreaches', Or.inl ⟨hnil, rfl, fun _ => ?_⟩⟩
      show s₁.current.kind ≠ .semicolon
      rw [rbrace_of_atEnd (s := s₁) hend hkind]
      decide

theorem loop_statements (hstop : AllStop call) (h : AllSeal rest eof call)
    (heof : s.eof.kind = .eof) (hts : s.ahead = [] ∨ Terminated s.ahead)
    (hne : (exec (body call _ statements) s).2.ahead ≠ []) :
    exec (body call _ statements) (s.extend rest eof) =
      ((exec (body call _ statements) s).1,
        (exec (body call _ statements) s).2.extend rest eof) := by
  rcases hts with hnil | hts
  · have hend : s.atEnd = true := by
      simp [State.atEnd, State.current, hnil, heof]
    rw [exec_body_statements, if_pos hend] at hne
    exact absurd hnil hne
  rw [exec_body_statements] at hne
  rw [exec_body_statements, exec_body_statements, State.atEnd_extend hts.ne_nil]
  split
  · rfl
  next hend =>
  rw [if_neg hend] at hne
  obtain ⟨hreaches, hends⟩ := h.one statement s trivial heof hts
  rcases hr : exec (call _ statement) s with ⟨r, s₁⟩
  rw [hr] at hreaches hends hne
  dsimp only at hreaches hends
  have heof₁ : s₁.eof.kind = .eof := hreaches.eof ▸ heof
  have hsuffix {ts : List Token} (hle : ts <:+ s₁.ahead) : ts = [] ∨ Terminated ts := by
    by_cases hnil : ts = []
    · exact Or.inl hnil
    · exact Or.inr (hts.suffix (hle.trans hreaches.ahead) hnil)
  cases r with
  | none =>
    dsimp only at hne
    rcases hends with ⟨hnil, hlonger, -⟩ | ⟨hnil, -, -⟩
    · rw [hlonger]
      dsimp only
      rw [recover_extend (hts.suffix hreaches.ahead hnil)]
      exact h.loop (recover s₁) heof₁ (hsuffix (reaches_recover s₁).ahead) hne
    · -- nothing is left to skip, so the loop ends where the tokens end
      have hrest := (hstop _ statements (recover s₁) trivial heof₁).1.ahead
      have hall := hrest.trans (reaches_recover s₁).ahead
      rw [hnil] at hall
      exact absurd (List.suffix_nil.mp hall) hne
  | some first =>
    obtain ⟨hnil, hlonger, -⟩ := hends.resolve_right fun h => by cases h.2.1
    rw [hlonger]
    dsimp only at hne ⊢
    rw [State.advance_extend hnil]
    have hloop := h.loop s₁.advance heof₁ (hsuffix (List.tail_suffix _))
    rw [exec_bind] at hne
    rw [exec_bind, exec_bind]
    rcases hothers : exec (call _ statements) s₁.advance with ⟨_ | others, s₂⟩ <;>
      rw [hothers] at hne hloop <;> rw [hloop hne] <;> rfl

theorem allSeal_body (hstop : AllStop call) (h : AllSeal rest eof call) :
    AllSeal rest eof (body call) where
  one c s hs := by
    cases c with
    | expression p =>
      exact (h.one operand s trivial).bind fun left s₁ hs₁ => h.one (operators p left) s₁ hs₁
    | operators p left => exact sealed_operators h hs
    | operation token left => exact sealed_operation h hs
    | operand => exact sealed_operand h
    | conditional token => exact sealed_conditional h hs
    | items close => exact sealed_items hs.1 h hs.2
    | moreItems close => exact sealed_moreItems hs.1 h hs.2
    | pairs => exact sealed_pairs h hs
    | block => exact sealed_block hstop h hs
    | statements => cases hs
    | statement => exact sealed_statement h
    | moreParameters => exact sealed_moreParameters h hs
  loop s heof hts hne := loop_statements hstop h heof hts hne

end

/-- A statement is read in the same way when more tokens follow, unless it fails at the end of the
tokens inside of a block. -/
theorem Ends.extend {s s₁ : State} {r : Option Stmt} (heof : s.eof.kind = .eof)
    (hts : Terminated s.ahead) (h : statement.Ends s (r, s₁)) (rest : List Token) {eof : Token}
    (heof' : eof.kind = .eof) :
    s₁.ahead ≠ [] ∧ statement.Ends (s.extend rest eof) (r, s₁.extend rest eof) ∨
      s₁.ahead = [] ∧ r = none ∧ ∃ t ∈ s.ahead, t.kind = .lbrace := by
  have hends := statement.ends_bounded (s := s.extend rest eof) heof'
  obtain ⟨call, ⟨hstop, hseal⟩, hr, hr'⟩ :=
    h.jointly (P := fun call => AllStop call ∧ AllSeal rest eof call)
      ⟨allStop_giveUp, allSeal_giveUp⟩ (fun _ h => ⟨allStop_body h.1, allSeal_body h.1 h.2⟩) hends
  obtain ⟨-, hruns⟩ := (allSeal_body hstop hseal).one statement s trivial heof hts
  rw [← hr] at hruns
  refine hruns.imp (fun hsame => ⟨hsame.1, ?_⟩) id
  rw [← hsame.2.1, ← hr']
  exact hends

end Call

end Parser

end Monkey
