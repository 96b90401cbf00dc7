import Mathlib.Data.List.Forall2
import Monkey.Proofs.Parser.Recovery
import Monkey.Proofs.Scanning.Order

/-!
# Where diagnostics stand

A diagnostic is about the token on which a parser stands or about the one after it. So the order
of the diagnostics follows that of the tokens if a parser never refuses its own token after it has
refused the next one. What is kept is how far diagnostics reach: up to the current token
(`State.Here`) where an expression or a statement is read, and up to the next one (`State.Near`)
where reading goes on after a tree (`Call.InStep`). All parsers leave it at the next token, whether
they give a tree or not (`Call.allTell_body`).

Where a statement has failed with the next token refused, skipping takes at least the current token,
and then the last diagnostic is about the new current token at most. It takes none only at the
brace that closes the innermost block, and then the block ends there (`State.Near.recover`).
-/

namespace Monkey

/-! ## Messages -/

/-- `Quotes t message`: the message starts with the line and the column of the token, and quotes its
literal. Where it says what was expected, or that no expression starts there, it names the kind of
the token, too. -/
inductive Diagnostic.Quotes (t : Token) : String → Prop
  | unexpected (expected : Token.Kind) : Quotes t (
    toString t.location.line ++ ":" ++ toString t.location.column ++ ": " ++
      ("expected next token to be " ++ expected.name ++ ", got " ++ t.kind.name ++
        " (" ++ ("\"" ++ t.literal ++ "\"") ++ ") instead"))
  | noExpression : Quotes t (
    toString t.location.line ++ ":" ++ toString t.location.column ++ ": " ++
      ("no prefix parse function for " ++ t.kind.name ++
        " (" ++ ("\"" ++ t.literal ++ "\"") ++ ") found"))
  | illegal : Quotes t (
    toString t.location.line ++ ":" ++ toString t.location.column ++ ": " ++
      ("illegal token (" ++ ("\"" ++ t.literal ++ "\"") ++ ")"))
  | integerRange : Quotes t (
    toString t.location.line ++ ":" ++ toString t.location.column ++ ": " ++
      ("could not parse " ++ ("\"" ++ t.literal ++ "\"") ++ " as integer"))

/-- A message quotes the token that its diagnostic is about. -/
theorem Diagnostic.quotes_message (d : Diagnostic) : Quotes d.token d.message := by
  cases d with
  | unexpected expected t => exact .unexpected expected
  | noExpression t => exact .noExpression
  | illegal t => exact .illegal
  | integerRange t => exact .integerRange

/-- `Anchored all high ds`: the diagnostics, the latest first, are about tokens of the list `all`,
the latest about one that is at `high` or before, and each about one that is not after that of a
later one. -/
def Anchored (all : List Token) : Nat → List Diagnostic → Prop
  | _, [] => True
  | high, d :: ds => ∃ i ≤ high, all[i]? = some d.token ∧ Anchored all i ds

namespace Anchored

variable {all : List Token} {low high : Nat} {ds : List Diagnostic}

theorem mono (hle : low ≤ high) (h : Anchored all low ds) : Anchored all high ds := by
  cases ds with
  | nil => trivial
  | cons d ds =>
    obtain ⟨i, hi, hd, hds⟩ := h
    exact ⟨i, Nat.le_trans hi hle, hd, hds⟩

theorem exists_places (h : Anchored all high ds) :
    ∃ places : List Nat, places.Pairwise (· ≥ ·) ∧ (∀ i ∈ places, i ≤ high) ∧
      List.Forall₂ (fun d i => all[i]? = some d.token) ds places := by
  induction ds generalizing high with
  | nil => exact ⟨[], .nil, by simp, .nil⟩
  | cons d ds ih =>
    obtain ⟨i, hi, hd, hds⟩ := h
    obtain ⟨places, hordered, hbound, hplaces⟩ := ih hds
    refine ⟨i :: places, .cons hbound hordered, fun j hj => ?_, .cons hd hplaces⟩
    rcases List.mem_cons.mp hj with rfl | hj
    · exact hi
    · exact Nat.le_trans (hbound j hj) hi

end Anchored

namespace Parser

/-! ## Places -/

variable {stream : TokenStream}

namespace State

/-- How many tokens of the text have been passed. -/
def place (stream : TokenStream) (s : State) : Nat := stream.tokens.length - s.ahead.length

/-- A state that stands on a token of the text. -/
structure Within (stream : TokenStream) (s : State) : Prop where
  ahead : s.ahead <:+ stream.tokens
  eof : s.eof = stream.eof

variable {s s' : State}

theorem Within.reaches (h : s.Within stream) (hreaches : s.Reaches s') : s'.Within stream :=
  ⟨hreaches.ahead.trans h.ahead, hreaches.eof.trans h.eof⟩

theorem Within.advance (h : s.Within stream) : s.advance.Within stream :=
  h.reaches s.reaches_advance

theorem Within.getElem?_place (h : s.Within stream) :
    stream.toList[s.place stream]? = some s.current := by
  obtain ⟨passed, hpassed⟩ := h.ahead
  have hplace : s.place stream = passed.length := by simp [place, ← hpassed]
  rw [hplace, TokenStream.toList, ← hpassed, ← h.eof, List.append_assoc,
    List.getElem?_append_right (Nat.le_refl _), Nat.sub_self, State.current]
  cases s.ahead <;> rfl

theorem place_le_of_reaches (stream : TokenStream) (h : s.Reaches s') :
    s.place stream ≤ s'.place stream := by
  have hlength := h.ahead.length_le
  unfold place
  omega

theorem place_le_advance (stream : TokenStream) (s : State) :
    s.place stream ≤ s.advance.place stream :=
  place_le_of_reaches stream s.reaches_advance

/-- A state on a token of the text, whose diagnostics are in order and reach up to a place. -/
structure Told (stream : TokenStream) (high : Nat) (s : State) : Prop extends s.Within stream where
  anchored : Anchored stream.toList high s.reported

/-- No diagnostic is about a token after the current one. -/
def Here (stream : TokenStream) (s : State) : Prop := s.Told stream (s.place stream)

/-- No diagnostic is about a token after the next one. -/
def Near (stream : TokenStream) (s : State) : Prop := s.Told stream (s.advance.place stream)

theorem Here.near (h : s.Here stream) : s.Near stream :=
  ⟨h.toWithin, h.anchored.mono (s.place_le_advance stream)⟩

theorem Near.advance (h : s.Near stream) : s.advance.Here stream :=
  ⟨h.toWithin.advance, h.anchored⟩

theorem Here.report (h : s.Here stream) {d : Diagnostic} (hd : d.token = s.current) :
    (s.report d).Near stream := by
  refine Here.near ⟨h.toWithin.reaches (s.reaches_report d), ?_⟩
  exact ⟨s.place stream, Nat.le_refl _, hd ▸ h.getElem?_place, h.anchored⟩

theorem Near.report (h : s.Near stream) {d : Diagnostic} (hd : d.token = s.next) :
    (s.report d).Near stream := by
  refine ⟨h.toWithin.reaches (s.reaches_report d), s.advance.place stream, Nat.le_refl _, ?_,
    h.anchored⟩
  exact hd ▸ h.toWithin.advance.getElem?_place

/-- At the end of the text there is no next token. -/
theorem Near.here_of_eof (hkinds : ∀ t ∈ stream.tokens, t.kind ≠ .eof) (h : s.Near stream)
    (heof : s.current.kind = .eof) : s.Here stream := by
  have hahead : s.ahead = [] := by
    rcases hts : s.ahead with _ | ⟨t, ts⟩
    · rfl
    · have hmem : t ∈ stream.tokens := h.ahead.subset (by simp [hts])
      rw [State.current, hts] at heof
      exact absurd heof (hkinds t hmem)
  have hplace : s.advance.place stream = s.place stream := by
    simp [place, State.advance, hahead]
  exact ⟨h.toWithin, hplace ▸ h.anchored⟩

/-- Reading can go on after a malformed statement: a token has been skipped, or the innermost block
ends here. -/
theorem Near.recover (h : s.Near stream) :
    (recover s).Here stream ∨ ((recover s).atEnd = true ∧ (recover s).Near stream) := by
  have hwithin := h.toWithin.reaches (reaches_recover s)
  have hhere (hskip : (Parser.recover s).ahead.length ≤ s.advance.ahead.length) :
      (Parser.recover s).Here stream := by
    refine ⟨hwithin, h.anchored.mono ?_⟩
    unfold place
    omega
  rcases hahead : s.ahead with _ | ⟨t, ts⟩
  · -- the end token is also the next one
    exact Or.inl (hhere (by simp [Parser.recover, hahead, skipStatement]))
  by_cases hstop : t.kind = .rbrace ∧ s.openBlocks > 0
  · -- nothing is skipped, and the next token may have been refused
    have hsame : Parser.recover s = s := by
      obtain ⟨ahead, eof, openBlocks, reported⟩ := s
      obtain rfl : ahead = t :: ts := hahead
      simp only [Parser.recover, skipStatement]
      rw [if_pos (by simpa using hstop)]
    rw [hsame]
    exact Or.inr ⟨by simp [atEnd, State.current, hahead, hstop], h⟩
  · have hskip := length_skipStatement_lt (decide (s.openBlocks > 0)) (by simpa using hstop) ts
    refine Or.inl (hhere ?_)
    simp only [Parser.recover, State.advance, hahead, List.tail_cons, List.length_cons] at hskip ⊢
    omega

end State

/-! ## Parsers -/

variable {α β : Type}

/-- From a state a parser leaves the diagnostics in order, and none beyond the next token. -/
def Tells (stream : TokenStream) (x : Parser α) (s : State) : Prop :=
  Meets x s fun _ s' => s'.Near stream

namespace Tells

variable {x : Parser α} {f : α → Parser β} {s : State}

theorem pure {a : α} (h : s.Near stream) : Tells stream (Pure.pure a) s :=
  Meets.pure h

theorem bind (hx : Tells stream x s) (hf : ∀ a s₁, s₁.Near stream → Tells stream (f a) s₁) :
    Tells stream (x >>= f) s :=
  Meets.bind hx (fun _ _ h => h) fun a s₁ _ h => hf a s₁ h

theorem advance {f : Unit → Parser β} (h : s.Near stream)
    (hf : s.advance.Here stream → Tells stream (f ()) s.advance) :
    Tells stream (Parser.advance >>= f) s :=
  Meets.advance (hf h.advance)

theorem expect {kind : Token.Kind} {f : Unit → Parser β} (h : s.Near stream)
    (hf : s.advance.Near stream → Tells stream (f ()) s.advance) :
    Tells stream (Parser.expect kind >>= f) s :=
  Meets.expect (fun _ => hf h.advance.near) (h.report rfl)

theorem refuseOperand (h : s.Here stream) : Tells stream (Parser.refuseOperand : Parser α) s := by
  refine Meets.current (Meets.refuse (h.report ?_))
  split <;> rfl

end Tells

namespace Call

/-- How far diagnostics may reach where the parser of a call is started. -/
def InStep (stream : TokenStream) : {α : Type} → Call α → State → Prop
  | _, expression _, s | _, operand, s | _, statement, s => s.Here stream
  | _, statements, s => s.Here stream ∨ (s.atEnd = true ∧ s.Near stream)
  | _, _, s => s.Near stream

/-- Every call leaves the diagnostics in order, and the loop over statements gives a list. -/
structure AllTell (stream : TokenStream) (call : Handler) : Prop where
  tells : ∀ {α : Type} (c : Call α) {s : State}, c.InStep stream s → Tells stream (call α c) s
  reads : ∀ s : State, (exec (call _ statements) s).1.isSome = true

/-- Neither passes a token nor reports one. -/
def stay : Handler
  | _, statements => pure []
  | _, _ => failure

theorem InStep.near {c : Call α} {s : State} (h : c.InStep stream s) : s.Near stream := by
  cases c with
  | expression | operand | statement => exact State.Here.near h
  | statements => exact h.elim State.Here.near And.right
  | _ => exact h

theorem allTell_stay : AllTell stream stay := by
  refine ⟨fun c s h => ?_, fun _ => rfl⟩
  cases c with
  | statements => exact Tells.pure h.near
  | _ => exact Meets.of_exec rfl (.refl s) h.near

section

variable {call : Handler} {s : State}

theorem tells_parametersBefore (h : AllTell stream call) (hs : s.Near stream) :
    Tells stream (parametersBefore (call _ moreParameters)) s := by
  refine Meets.nextIs (Meets.ite (fun _ => ?_) fun _ => ?_)
  · exact Tells.advance hs fun hs₁ => Tells.pure hs₁.near
  · refine Tells.expect hs fun hs₁ => Meets.current ?_
    exact Tells.bind (h.tells moreParameters hs₁) fun _ _ hs₂ => Tells.pure hs₂

theorem tells_operand (h : AllTell stream call) (hs : s.Here stream) :
    Tells stream (body call _ operand) s := by
  refine Meets.current ?_
  cases s.current.kind
  case ident | float | string | kwTrue | kwFalse => exact Tells.pure hs.near
  case int =>
    cases Integer.ofDigits? s.current.literal with
    | some value => exact Tells.pure hs.near
    | none => exact Meets.refuse (hs.report rfl)
  case minus | bang =>
    exact Tells.advance hs.near fun hs₁ => Tells.bind (h.tells (expression .unary) hs₁)
      fun _ _ hs₂ => Tells.pure hs₂
  case lparen =>
    refine Tells.advance hs.near fun hs₁ => ?_
    refine Tells.bind (h.tells (expression .lowest) hs₁) fun _ _ hs₂ => ?_
    exact Tells.expect hs₂ fun hs₃ => Tells.pure hs₃
  case lbracket =>
    exact Tells.bind (h.tells (items .rbracket) hs.near) fun _ _ hs₁ => Tells.pure hs₁
  case lbrace => exact Tells.bind (h.tells pairs hs.near) fun _ _ hs₁ => Tells.pure hs₁
  case kwIf => exact h.tells (conditional s.current) hs.near
  case kwFn =>
    refine Tells.expect hs.near fun hs₁ => ?_
    refine Tells.bind (tells_parametersBefore h hs₁) fun _ _ hs₂ => ?_
    refine Tells.expect hs₂ fun hs₃ => ?_
    exact Tells.bind (h.tells block hs₃) fun _ _ hs₄ => Tells.pure hs₄
  all_goals exact Tells.refuseOperand hs

theorem tells_operation {token : Token} {left : Expr} (h : AllTell stream call)
    (hs : s.Near stream) : Tells stream (body call _ (operation token left)) s := by
  refine Meets.ite (fun _ => ?_) fun _ => Meets.ite (fun _ => ?_) fun _ => ?_
  · exact Tells.bind (h.tells (items .rparen) hs) fun _ _ hs₁ => Tells.pure hs₁
  · refine Tells.advance hs fun hs₁ => ?_
    refine Tells.bind (h.tells (expression .lowest) hs₁) fun _ _ hs₂ => ?_
    exact Tells.expect hs₂ fun hs₃ => Tells.pure hs₃
  · refine Tells.advance hs fun hs₁ => ?_
    exact Tells.bind (h.tells (expression _) hs₁) fun _ _ hs₂ => Tells.pure hs₂

theorem tells_conditional {token : Token} (h : AllTell stream call) (hs : s.Near stream) :
    Tells stream (body call _ (conditional token)) s := by
  refine Tells.expect hs fun hs₁ => Tells.advance hs₁ fun hs₂ => ?_
  refine Tells.bind (h.tells (expression .lowest) hs₂) fun _ _ hs₃ => ?_
  refine Tells.expect hs₃ fun hs₄ => Tells.expect hs₄ fun hs₅ => ?_
  refine Tells.bind (h.tells block hs₅) fun _ _ hs₆ => ?_
  refine Meets.nextIs (Meets.ite (fun _ => ?_) fun _ => Tells.pure hs₆)
  refine Tells.advance hs₆ fun hs₇ => Tells.expect hs₇.near fun hs₈ => ?_
  exact Tells.bind (h.tells block hs₈) fun _ _ hs₉ => Tells.pure hs₉

theorem tells_moreItems {close : Token.Kind} (h : AllTell stream call) (hs : s.Near stream) :
    Tells stream (body call _ (moreItems close)) s := by
  refine Meets.nextIs (Meets.ite (fun _ => ?_) fun _ => ?_)
  · refine Tells.advance hs fun hs₁ => Tells.advance hs₁.near fun hs₂ => ?_
    refine Tells.bind (h.tells (expression .lowest) hs₂) fun _ s₁ hs₃ => ?_
    exact Tells.bind (h.tells (moreItems close) hs₃) fun _ _ hs₄ => Tells.pure hs₄
  · exact Tells.expect hs fun hs₁ => Tells.pure hs₁

theorem tells_pairs (h : AllTell stream call) (hs : s.Near stream) :
    Tells stream (body call _ pairs) s := by
  refine Meets.nextIs (Meets.ite (fun _ => ?_) fun _ => Tells.advance hs fun hs₁ => ?_)
  · exact Tells.advance hs fun hs₁ => Tells.pure hs₁.near
  refine Tells.bind (h.tells (expression .lowest) hs₁) fun _ _ hs₂ => ?_
  refine Tells.expect hs₂ fun hs₃ => Tells.advance hs₃ fun hs₄ => ?_
  refine Tells.bind (h.tells (expression .lowest) hs₄) fun _ s₁ hs₅ => ?_
  refine Meets.nextIs (Meets.ite (fun _ => ?_) fun _ => Tells.expect hs₅ fun hs₆ => ?_)
  · exact Tells.bind (h.tells pairs hs₅) fun _ _ hs₆ => Tells.pure hs₆
  · exact Tells.bind (h.tells pairs hs₆) fun _ _ hs₇ => Tells.pure hs₇

/-- A block that is not closed refuses the end token, and no diagnostic is about a later one. -/
theorem tells_block (hkinds : ∀ t ∈ stream.tokens, t.kind ≠ .eof) (h : AllTell stream call)
    (hs : s.Near stream) : Tells stream (body call _ block) s := by
  intro heof
  have hinside : s.enter.advance.Here stream :=
    ⟨⟨hs.toWithin.advance.ahead, hs.eof⟩, hs.anchored⟩
  obtain ⟨hreaches, hnear⟩ := h.tells statements (Or.inl hinside) heof
  have hreads := h.reads s.enter.advance
  rw [exec_body_block]
  rcases hr : exec (call _ statements) s.enter.advance with ⟨_ | body, s₁⟩ <;>
    rw [hr] at hreaches hnear hreads
  · cases hreads
  have hleave : s₁.leave.Near stream := ⟨⟨hnear.ahead, hnear.eof⟩, hnear.anchored⟩
  dsimp only
  split
  · next hkind =>
    refine ⟨(reaches_leave hreaches).trans (State.reaches_report _ _), ?_⟩
    exact (hleave.here_of_eof hkinds hkind).report rfl
  · exact ⟨reaches_leave hreaches, hleave⟩

theorem tells_statement (h : AllTell stream call) (hs : s.Here stream) :
    Tells stream (body call _ statement) s := by
  have hend {s₁ : State} {st : Stmt} (hs₁ : s₁.Near stream) :
      Tells stream (do terminator; return st) s₁ :=
    Meets.terminator (fun _ => Tells.pure hs₁.advance.near) (Tells.pure hs₁) (hs₁.report rfl)
  refine Meets.current ?_
  cases s.current.kind
  case kwLet =>
    refine Tells.expect hs.near fun hs₁ => Meets.current ?_
    refine Tells.expect hs₁ fun hs₂ => Tells.advance hs₂ fun hs₃ => ?_
    exact Tells.bind (h.tells (expression .lowest) hs₃) fun _ _ hs₄ => hend hs₄
  case kwReturn =>
    refine Meets.next (Meets.ite (fun _ => hend hs.near) fun _ => ?_)
    refine Tells.advance hs.near fun hs₁ => ?_
    exact Tells.bind (h.tells (expression .lowest) hs₁) fun _ _ hs₂ => hend hs₂
  all_goals
    refine Tells.bind (h.tells (expression .lowest) hs) fun _ _ hs₁ => ?_
    refine Meets.nextIs (Meets.ite (fun _ => ?_) fun _ => Tells.pure hs₁)
    exact Tells.advance hs₁ fun hs₂ => Tells.pure hs₂.near

/-- A turn starts with no diagnostic beyond the current token, unless the loop ends there. -/
theorem tells_statements (h : AllTell stream call) (hs : statements.InStep stream s) :
    Tells stream (body call _ statements) s := by
  intro heof
  rw [exec_body_statements]
  split
  · exact ⟨.refl s, hs.near⟩
  next hend =>
  have hhere : s.Here stream := hs.resolve_right fun hends => hend hends.1
  obtain ⟨hturn, hnear⟩ := h.tells statement hhere heof
  rcases hr : exec (call _ statement) s with ⟨_ | first, s₁⟩ <;> rw [hr] at hturn hnear
  · obtain ⟨hreaches, hrest⟩ := h.tells statements hnear.recover (hturn.eof ▸ heof)
    exact ⟨(hturn.trans (reaches_recover s₁)).trans hreaches, hrest⟩
  · have hothers : Tells stream (do return first :: (← call _ statements)) s₁.advance :=
      Tells.bind (h.tells statements (Or.inl hnear.advance)) fun _ _ hs₂ => Tells.pure hs₂
    obtain ⟨hreaches, hrest⟩ := hothers (hturn.eof ▸ heof)
    exact ⟨(hturn.trans s₁.reaches_advance).trans hreaches, hrest⟩

theorem reads_statements (h : AllTell stream call) (s : State) :
    (exec (body call _ statements) s).1.isSome = true := by
  rw [exec_body_statements]
  split
  · rfl
  obtain ⟨_ | first, s₁⟩ := exec (call _ statement) s
  · exact h.reads (recover s₁)
  · have hreads := h.reads s₁.advance
    dsimp only
    rw [exec_bind]
    rcases hr : exec (call _ statements) s₁.advance with ⟨_ | others, s₂⟩ <;> rw [hr] at hreads
    · cases hreads
    · rfl

theorem allTell_body (hkinds : ∀ t ∈ stream.tokens, t.kind ≠ .eof) (h : AllTell stream call) :
    AllTell stream (body call) := by
  refine ⟨fun c s hs => ?_, reads_statements h⟩
  cases c with
  | expression p =>
    exact Tells.bind (h.tells operand hs) fun left _ hs₁ => h.tells (operators p left) hs₁
  | operators p left =>
    refine Meets.next (Meets.ite (fun _ => ?_) fun _ => Tells.pure hs)
    refine Tells.advance hs fun hs₁ => ?_
    exact Tells.bind (h.tells (operation s.next left) hs₁.near) fun longer _ hs₂ =>
      h.tells (operators p longer) hs₂
  | operation token left => exact tells_operation h hs
  | operand => exact tells_operand h hs
  | conditional token => exact tells_conditional h hs
  | items close =>
    refine Meets.nextIs (Meets.ite (fun _ => ?_) fun _ => Tells.advance hs fun hs₁ => ?_)
    · exact Tells.advance hs fun hs₁ => Tells.pure hs₁.near
    refine Tells.bind (h.tells (expression .lowest) hs₁) fun _ _ hs₂ => ?_
    exact Tells.bind (h.tells (moreItems close) hs₂) fun _ _ hs₃ => Tells.pure hs₃
  | moreItems close => exact tells_moreItems h hs
  | pairs => exact tells_pairs h hs
  | block => exact tells_block hkinds h hs
  | statements => exact tells_statements h hs
  | statement => exact tells_statement h hs
  | moreParameters =>
    refine Meets.nextIs (Meets.ite (fun _ => ?_) fun _ => ?_)
    · refine Tells.advance hs fun hs₁ => Tells.expect hs₁.near fun hs₂ => Meets.current ?_
      exact Tells.bind (h.tells moreParameters hs₂) fun _ _ hs₃ => Tells.pure hs₃
    · exact Tells.expect hs fun hs₁ => Tells.pure hs₁

end

/-- A call that ends has left the diagnostics in order. -/
theorem Ends.near (hkinds : ∀ t ∈ stream.tokens, t.kind ≠ .eof) {c : Call α} {s : State}
    {r : Option α × State} (heof : s.eof.kind = .eof) (hs : c.InStep stream s)
    (h : c.Ends s r) : r.2.Near stream := by
  obtain ⟨call, htell, rfl⟩ := h.induct allTell_stay fun _ => allTell_body hkinds
  exact ((allTell_body hkinds htell).tells c hs heof).2

end Call

end Parser

open Monkey.Parser

/-- **Diagnostics are anchored, and in the order of the text.** Each diagnostic of a text is about
one of its tokens, the end token included: its message starts with the place of the token and
quotes it. In the order in which the diagnostics are returned these tokens never go back in the
text. A token does not come twice, so it is clear which one is meant. -/
theorem diagnostics_anchored (source : String) :
    (Token.scan source).toList.Nodup ∧
      ∃ places : List Nat, places.Pairwise (· ≤ ·) ∧
        List.Forall₂ (fun d i => ∃ t, (Token.scan source).toList[i]? = some t ∧
          Diagnostic.Quotes t d.message) (parse source).diagnostics places := by
  refine ⟨Token.nodup_scan source, ?_⟩
  obtain ⟨body, s', hends, hparse, -⟩ := ends_parse source
  have hstart : Call.statements.InStep (Token.scan source) (.ofStream (Token.scan source)) :=
    Or.inl ⟨⟨List.suffix_refl _, rfl⟩, trivial⟩
  have hnear : s'.Near (Token.scan source) :=
    hends.near (fun _ => Token.kind_ne_eof_of_mem_scan) (Token.kind_eof_scan source) hstart
  obtain ⟨places, hordered, -, hplaces⟩ := hnear.anchored.exists_places
  refine ⟨places.reverse, List.pairwise_reverse.mpr hordered, ?_⟩
  rw [hparse]
  refine List.forall₂_reverse_iff.mpr (hplaces.imp fun d i hi => ?_)
  exact ⟨d.token, hi, d.quotes_message⟩

end Monkey
