import Monkey.Proofs.Parser.Termination
import Monkey.Tree.Printer

/-!
# Where reading stops, and where it goes on

A parser that gives a tree stands on a token in the middle of a statement: not on a
keyword that starts one, nor on a semicolon, nor at the end of the text. A parser that
gives nothing may stand on such a keyword, but then it has just refused it as an
expression. Only a statement may also fail on the keyword it starts with. This is shown
for all parsers at once (`Call.allStop_body`), by what each does itself.

`Parser.recover` skips from where a statement has failed. It passes a keyword only if it
starts on it (`exists_places`). So the one keyword that can get lost is
the one that was refused as an expression (`recover_passes_keyword_iff`).
-/

namespace Monkey

namespace Token.Kind

/-- Whether a kind is that of a keyword with which a statement starts. -/
def startsStatement : Kind → Bool
  | kwLet | kwReturn => true
  | _ => false

/-- Whether tokens of a kind stand in the middle of a statement: they neither start one like a
keyword, nor end one, nor end the text. -/
def isInner : Kind → Bool
  | kwLet | kwReturn | semicolon | eof => false
  | _ => true

theorem not_startsStatement_of_isInner {kind : Kind} (h : kind.isInner = true) :
    kind.startsStatement = false := by
  cases kind <;> simp_all [isInner, startsStatement]

theorem ne_eof_of_isInner {kind : Kind} (h : kind.isInner = true) : kind ≠ eof := by
  rintro rfl
  cases h

end Token.Kind

namespace Parser

theorem State.current_advance (s : State) : s.advance.current = s.next := rfl

/-- What binds to an operand stands in the middle of a statement. -/
theorem Precedence.isInner_of_lt {p : Precedence} {kind : Token.Kind}
    (h : p.level < (ofKind kind).level) : kind.isInner = true := by
  cases kind <;> first | rfl | exact absurd h (Nat.not_lt_zero _)

/-! ## Results of a run -/

variable {α β : Type}

/-- From a state a parser passes tokens and adds diagnostics, and its result and the state in
which it ends satisfy `Q`. -/
def Meets (x : Parser α) (s : State) (Q : Option α → State → Prop) : Prop :=
  s.eof.kind = .eof → s.Reaches (exec x s).2 ∧ Q (exec x s).1 (exec x s).2

namespace Meets

variable {x : Parser α} {f : α → Parser β} {s s' : State} {P : Option α → State → Prop}
  {Q : Option β → State → Prop}

theorem of_exec {r : Option α} (h : exec x s = (r, s')) (hreaches : s.Reaches s') (hP : P r s') :
    Meets x s P := by
  intro _
  rw [h]
  exact ⟨hreaches, hP⟩

theorem pure {a : α} (h : P (some a) s) : Meets (Pure.pure a) s P :=
  of_exec rfl (.refl s) h

theorem refuse {d : Diagnostic} (h : P none (s.report d)) : Meets (Parser.refuse d) s P :=
  of_exec rfl (s.reaches_report d) h

theorem refuseOperand (h : ∀ d, (s.current.kind ≠ .illegal → d = .noExpression s.current) →
    P none (s.report d)) : Meets Parser.refuseOperand s P :=
  refuse (h _ fun hkind => if_neg hkind)

theorem bind (hx : Meets x s P) (hnone : ∀ s₁, s.Reaches s₁ → P none s₁ → Q none s₁)
    (hsome : ∀ a s₁, s.Reaches s₁ → P (some a) s₁ → Meets (f a) s₁ Q) : Meets (x >>= f) s Q := by
  intro heof
  obtain ⟨hreaches, hP⟩ := hx heof
  rw [exec_bind]
  rcases hr : exec x s with ⟨_ | a, s₁⟩ <;> rw [hr] at hreaches hP
  · exact ⟨hreaches, hnone s₁ hreaches hP⟩
  · have hrest := hsome a s₁ hreaches hP (hreaches.eof ▸ heof)
    exact ⟨hreaches.trans hrest.1, hrest.2⟩

theorem ite {c : Prop} [Decidable c] {y : Parser α} (ht : c → Meets x s P)
    (hf : ¬c → Meets y s P) : Meets (if c then x else y) s P := by
  split
  · next h => exact ht h
  · next h => exact hf h

theorem current {f : Token → Parser β} (h : Meets (f s.current) s Q) :
    Meets (Parser.current >>= f) s Q := h

theorem next {f : Token → Parser β} (h : Meets (f s.next) s Q) : Meets (Parser.next >>= f) s Q := h

theorem nextIs {kind : Token.Kind} {f : Bool → Parser β} (h : Meets (f (s.next.kind == kind)) s Q) :
    Meets (Parser.nextIs kind >>= f) s Q := h

theorem advance {f : Unit → Parser β} (h : Meets (f ()) s.advance Q) :
    Meets (Parser.advance >>= f) s Q := by
  intro heof
  obtain ⟨hreaches, hQ⟩ := h heof
  exact ⟨s.reaches_advance.trans hreaches, hQ⟩

theorem expect {kind : Token.Kind} {f : Unit → Parser β}
    (hkind : s.advance.current.kind = kind → Meets (f ()) s.advance Q)
    (hnone : Q none (s.report (.unexpected kind s.next))) :
    Meets (Parser.expect kind >>= f) s Q := by
  by_cases h : s.next.kind = kind
  · have hexec : exec (Parser.expect kind) s = (some (), s.advance) := gives_expect.mpr ⟨h, rfl⟩
    refine bind (P := fun r s₁ => r = some () ∧ s₁ = s.advance)
      (of_exec hexec s.reaches_advance ⟨rfl, rfl⟩) (fun _ _ h => nomatch h.1) ?_
    rintro _ _ - ⟨-, rfl⟩
    exact hkind h
  · have hexec : exec (Parser.expect kind) s = (none, s.report (.unexpected kind s.next)) := by
      show exec (if s.next.kind = kind then Parser.advance else _) s = _
      rw [if_neg h]
      rfl
    refine bind (P := fun r s₁ => r = none ∧ s₁ = s.report (.unexpected kind s.next))
      (of_exec hexec (s.reaches_report _) ⟨rfl, rfl⟩) ?_ fun _ _ _ h => nomatch h.1
    rintro _ - ⟨-, rfl⟩
    exact hnone

theorem terminator {f : Unit → Parser β}
    (hsemicolon : s.advance.current.kind = .semicolon → Meets (f ()) s.advance Q)
    (hend : Meets (f ()) s Q) (hnone : Q none (s.report (.unexpected .semicolon s.next))) :
    Meets (Parser.terminator >>= f) s Q := by
  have hexec : exec (Parser.terminator >>= f) s =
      exec ((if s.next.kind = .semicolon then Parser.advance
        else if s.next.kind = .rbrace ∨ s.next.kind = .eof then Pure.pure ()
        else Parser.refuse (.unexpected .semicolon s.next)) >>= f) s := rfl
  unfold Meets
  rw [hexec]
  split
  · next h => exact advance (hsemicolon h)
  split
  · exact hend
  · exact of_exec (x := Parser.refuse _ >>= f) rfl (s.reaches_report _) hnone

end Meets

/-! ## Calls that are cut short -/

namespace Call

/-- Goes to where the statements of the innermost block, or of the program, end. -/
def skipToEnd (s : State) : State :=
  (s.on (s.ahead.dropWhile fun t => !(t.kind == .rbrace && decide (s.openBlocks > 0)))).report
    (.noExpression s.current)

/-- The least that a parser may do: it refuses the token on which it stands. The loop over
statements never fails, so it skips all of them. -/
def giveUp : Handler
  | _, statements => do
    modify skipToEnd
    return []
  | _, _ => refuseOperand

/-- What some way to cut calls short has, and a call keeps when its calls are taken apart once more,
is what all calls have that stand for those of calls that end. Two calls that end can be seen as
run by the same ones. -/
theorem Ends.jointly {P : Handler → Prop} {z : Handler} (hz : P z)
    (hbody : ∀ h, P h → P (body h)) {c : Call α} {c' : Call β} {s s' : State}
    {r : Option α × State} {r' : Option β × State} (h : c.Ends s r) (h' : c'.Ends s' r') :
    ∃ call, P call ∧ r = exec (body call α c) s ∧ r' = exec (body call β c') s' := by
  obtain ⟨n, hn⟩ := h
  obtain ⟨k, hk⟩ := h'
  have hsucc (m : Nat) : body (unroll z m) = unroll z (m + 1) := rfl
  refine ⟨unroll z (n + k), ?_, ?_, ?_⟩
  · generalize n + k = m
    induction m with
    | zero => exact hz
    | succ m ih => exact hbody _ ih
  · rw [hsucc, Nat.add_assoc, unroll_add, hn]
  · rw [hsucc, Nat.add_comm n, Nat.add_assoc, unroll_add, hk]

theorem Ends.induct {P : Handler → Prop} {z : Handler} (hz : P z) (hbody : ∀ h, P h → P (body h))
    {c : Call α} {s : State} {r : Option α × State} (h : c.Ends s r) :
    ∃ call, P call ∧ r = exec (body call α c) s := by
  obtain ⟨call, hcall, hr, -⟩ := h.jointly hz hbody h
  exact ⟨call, hcall, hr⟩

theorem reaches_skipToEnd (s : State) : s.Reaches (skipToEnd s) :=
  ⟨rfl, rfl, List.dropWhile_suffix _, List.suffix_cons _ _⟩

theorem atEnd_skipToEnd {s : State} (heof : s.eof.kind = .eof) : (skipToEnd s).atEnd = true := by
  have hstop := List.head?_dropWhile_not
    (fun t : Token => !(t.kind == .rbrace && decide (s.openBlocks > 0))) s.ahead
  show (_ || _) = true
  generalize hts : s.ahead.dropWhile _ = ts at hstop
  have hcurrent : (skipToEnd s).current = ts.headD s.eof := by rw [← hts]; rfl
  rw [hcurrent]
  cases ts with
  | nil => simp [heof]
  | cons t ts =>
    have hopen : (skipToEnd s).openBlocks = s.openBlocks := rfl
    simp_all

/-! ## Where parsers stop -/

end Call

/-- A keyword that starts a statement has just been refused, if reading stands on one. -/
def State.Refused (s : State) : Prop :=
  s.current.kind.startsStatement = true → s.reported.head? = some (.noExpression s.current)

/-- A parser ends in the middle of a statement, or where it has refused an expression. -/
def Inside : Option α → State → Prop
  | some _, s => s.current.kind.isInner = true
  | none, s => s.Refused

theorem State.refused_report {s : State} (h : s.current.kind.isInner = true) (d : Diagnostic) :
    (s.report d).Refused := by
  intro hkeyword
  have hnot := Token.Kind.not_startsStatement_of_isInner h
  exact absurd hkeyword (by simpa [State.report, State.current] using hnot)

namespace Meets

variable {x : Parser α} {f : α → Parser β} {s : State}

theorem inside_refuseOperand : Meets (Parser.refuseOperand : Parser α) s Inside := by
  refine refuseOperand fun d hd hkeyword => ?_
  have hkind : s.current.kind ≠ .illegal := by
    intro hkind
    have hkeyword' : s.current.kind.startsStatement = true := hkeyword
    rw [hkind] at hkeyword'
    cases hkeyword'
  rw [hd hkind]
  rfl

theorem inside_bind (hx : Meets x s Inside)
    (hf : ∀ a s₁, s₁.current.kind.isInner = true → Meets (f a) s₁ Inside) :
    Meets (x >>= f) s Inside :=
  hx.bind (fun _ _ h => h) fun a s₁ _ h => hf a s₁ h

theorem inside_expect {kind : Token.Kind} {f : Unit → Parser β}
    (h : s.current.kind.isInner = true)
    (hf : s.advance.current.kind = kind → Meets (f ()) s.advance Inside) :
    Meets (Parser.expect kind >>= f) s Inside :=
  expect hf (State.refused_report h _)

end Meets

namespace Call

/-- Where the parser of a call may be started. One that goes on after a token that has been read
stands in the middle of a statement. -/
def Ready : {α : Type} → Call α → State → Prop
  | _, operators _ _, s | _, operation _ _, s | _, pairs, s | _, conditional _, s
  | _, moreParameters, s => s.current.kind.isInner = true
  | _, items close, s | _, moreItems close, s =>
    close.isInner = true ∧ s.current.kind.isInner = true
  | _, _, _ => True

/-- Where the parser of a call stops. A statement may end on a semicolon or on its keyword, and it
may fail on its keyword. -/
def Stops : {α : Type} → Call α → State → Option α → State → Prop
  | _, statements, _, r, s' => r.isSome = true ∧ s'.atEnd = true
  | _, statement, s, r, s' => match r with
    | some _ => s'.current.kind ≠ .eof
    | none => s'.ahead = s.ahead ∨ s'.Refused
  | _, _, _, r, s' => Inside r s'

/-- Every call stops where it may. -/
def AllStop (call : Handler) : Prop :=
  ∀ (α : Type) (c : Call α) (s : State), c.Ready s → Meets (call α c) s (c.Stops s)

theorem allStop_giveUp : AllStop giveUp := by
  intro α c s _
  cases c with
  | statements =>
    intro heof
    exact ⟨reaches_skipToEnd s, rfl, atEnd_skipToEnd heof⟩
  | statement => exact Meets.refuseOperand fun _ _ => Or.inl rfl
  | _ => exact Meets.inside_refuseOperand

section

variable {call : Handler} {s : State}

theorem inside_parametersBefore (h : AllStop call) (hs : s.current.kind.isInner = true) :
    Meets (parametersBefore (call _ moreParameters)) s Inside := by
  refine Meets.nextIs (Meets.ite (fun hclose => ?_) fun _ => ?_)
  · refine Meets.advance (Meets.pure ?_)
    show s.next.kind.isInner = true
    rw [eq_of_beq hclose]
    rfl
  · refine Meets.inside_expect hs fun hname => Meets.current ?_
    exact Meets.inside_bind (h _ moreParameters _ (by rw [Ready, hname]; rfl)) fun _ _ hs₁ =>
      Meets.pure hs₁

theorem stops_operand (h : AllStop call) : Meets (body call _ operand) s Inside := by
  refine Meets.current ?_
  cases hkind : s.current.kind
  case ident | float | string | kwTrue | kwFalse =>
    exact Meets.pure (show s.current.kind.isInner = true by rw [hkind]; rfl)
  case int =>
    have hs : s.current.kind.isInner = true := by rw [hkind]; rfl
    cases Integer.ofDigits? s.current.literal with
    | some value => exact Meets.pure hs
    | none => exact Meets.refuse (State.refused_report hs _)
  case minus | bang =>
    exact Meets.advance (Meets.inside_bind (h _ (expression .unary) _ trivial) fun _ _ hs₁ =>
      Meets.pure hs₁)
  case lparen =>
    refine Meets.advance (Meets.inside_bind (h _ (expression .lowest) _ trivial) fun _ _ hs₁ => ?_)
    exact Meets.inside_expect hs₁ fun hclose => Meets.pure (by rw [Inside, hclose]; rfl)
  case lbracket =>
    exact Meets.inside_bind (h _ (items .rbracket) _ ⟨rfl, by rw [hkind]; rfl⟩) fun _ _ hs₁ =>
      Meets.pure hs₁
  case lbrace =>
    exact Meets.inside_bind (h _ pairs _ (by rw [Ready, hkind]; rfl)) fun _ _ hs₁ =>
      Meets.pure hs₁
  case kwIf => exact h _ (conditional s.current) s (by rw [Ready, hkind]; rfl)
  case kwFn =>
    refine Meets.inside_expect (by rw [hkind]; rfl) fun hopen => ?_
    refine Meets.inside_bind (inside_parametersBefore h (by rw [hopen]; rfl)) fun _ _ hs₁ => ?_
    refine Meets.inside_expect hs₁ fun _ => ?_
    exact Meets.inside_bind (h _ block _ trivial) fun _ _ hs₂ => Meets.pure hs₂
  all_goals exact Meets.inside_refuseOperand

theorem stops_operators {p : Precedence} {left : Expr} (h : AllStop call)
    (hs : s.current.kind.isInner = true) :
    Meets (body call _ (operators p left)) s Inside := by
  refine Meets.next (Meets.ite (fun hlevel => Meets.advance ?_) fun _ => Meets.pure hs)
  have hnext := Precedence.isInner_of_lt hlevel
  exact Meets.inside_bind (h _ (operation s.next left) _ hnext) fun longer s₁ hs₁ =>
    h _ (operators p longer) s₁ hs₁

theorem stops_operation {token : Token} {left : Expr} (h : AllStop call)
    (hs : s.current.kind.isInner = true) :
    Meets (body call _ (operation token left)) s Inside := by
  refine Meets.ite (fun _ => ?_) fun _ => Meets.ite (fun _ => ?_) fun _ => ?_
  · exact Meets.inside_bind (h _ (items .rparen) s ⟨rfl, hs⟩) fun _ _ hs₁ => Meets.pure hs₁
  · refine Meets.advance (Meets.inside_bind (h _ (expression .lowest) _ trivial) fun _ _ hs₁ => ?_)
    exact Meets.inside_expect hs₁ fun hclose => Meets.pure (by rw [Inside, hclose]; rfl)
  · exact Meets.advance (Meets.inside_bind (h _ (expression _) _ trivial) fun _ _ hs₁ =>
      Meets.pure hs₁)

theorem stops_conditional {token : Token} (h : AllStop call) (hs : s.current.kind.isInner = true) :
    Meets (body call _ (conditional token)) s Inside := by
  refine Meets.inside_expect hs fun _ => Meets.advance ?_
  refine Meets.inside_bind (h _ (expression .lowest) _ trivial) fun _ s₁ hs₁ => ?_
  refine Meets.inside_expect hs₁ fun hclose => Meets.inside_expect (by rw [hclose]; rfl) fun _ => ?_
  refine Meets.inside_bind (h _ block _ trivial) fun _ s₂ hs₂ => Meets.nextIs ?_
  refine Meets.ite (fun helse => Meets.advance ?_) fun _ => Meets.pure hs₂
  have helse' : s₂.advance.current.kind = .kwElse := eq_of_beq helse
  refine Meets.inside_expect (by rw [helse']; rfl) fun _ => ?_
  exact Meets.inside_bind (h _ block _ trivial) fun _ _ hs₃ => Meets.pure hs₃

theorem stops_items {close : Token.Kind} (hclose : close.isInner = true) (h : AllStop call) :
    Meets (body call _ (items close)) s Inside := by
  refine Meets.nextIs (Meets.ite (fun hnext => Meets.advance (Meets.pure ?_)) fun _ => ?_)
  · show s.next.kind.isInner = true
    rw [eq_of_beq hnext, hclose]
  · refine Meets.advance (Meets.inside_bind (h _ (expression .lowest) _ trivial) fun _ s₁ hs₁ => ?_)
    exact Meets.inside_bind (h _ (moreItems close) s₁ ⟨hclose, hs₁⟩) fun _ _ hs₂ => Meets.pure hs₂

theorem stops_moreItems {close : Token.Kind} (hclose : close.isInner = true)
    (h : AllStop call) (hs : s.current.kind.isInner = true) :
    Meets (body call _ (moreItems close)) s Inside := by
  refine Meets.nextIs (Meets.ite (fun _ => ?_) fun _ => ?_)
  · refine Meets.advance (Meets.advance ?_)
    refine Meets.inside_bind (h _ (expression .lowest) _ trivial) fun _ s₁ hs₁ => ?_
    exact Meets.inside_bind (h _ (moreItems close) s₁ ⟨hclose, hs₁⟩) fun _ _ hs₂ => Meets.pure hs₂
  · exact Meets.inside_expect hs fun hnext => Meets.pure (by rw [Inside, hnext, hclose])

theorem stops_moreParameters (h : AllStop call) (hs : s.current.kind.isInner = true) :
    Meets (body call _ moreParameters) s Inside := by
  refine Meets.nextIs (Meets.ite (fun hcomma => Meets.advance ?_) fun _ => ?_)
  · have hcomma' : s.advance.current.kind = .comma := eq_of_beq hcomma
    refine Meets.inside_expect (by rw [hcomma']; rfl) fun hname => Meets.current ?_
    exact Meets.inside_bind (h _ moreParameters _ (by rw [Ready, hname]; rfl)) fun _ _ hs₁ =>
      Meets.pure hs₁
  · exact Meets.inside_expect hs fun hnext => Meets.pure (by rw [Inside, hnext]; rfl)

theorem stops_pairs (h : AllStop call) : Meets (body call _ pairs) s Inside := by
  refine Meets.nextIs (Meets.ite (fun hclose => Meets.advance (Meets.pure ?_)) fun _ => ?_)
  · show s.next.kind.isInner = true
    rw [eq_of_beq hclose]
    rfl
  refine Meets.advance (Meets.inside_bind (h _ (expression .lowest) _ trivial) fun _ s₁ hs₁ => ?_)
  refine Meets.inside_expect hs₁ fun _ => Meets.advance ?_
  refine Meets.inside_bind (h _ (expression .lowest) _ trivial) fun _ s₂ hs₂ => Meets.nextIs ?_
  refine Meets.ite (fun _ => ?_) fun _ => Meets.inside_expect hs₂ fun hcomma => ?_
  · exact Meets.inside_bind (h _ pairs s₂ hs₂) fun _ _ hs₃ => Meets.pure hs₃
  · exact Meets.inside_bind (h _ pairs _ (by rw [Ready, hcomma]; rfl)) fun _ _ hs₃ =>
      Meets.pure hs₃

theorem reaches_leave {s s₁ : State} (h : s.enter.advance.Reaches s₁) : s.Reaches s₁.leave := by
  have hr := (State.reaches_advance s.enter).trans h
  -- the count that `enter` raises is the one that `leave` lowers
  have hcount : s₁.openBlocks - 1 = s.openBlocks := by
    rw [hr.openBlocks]
    exact Nat.add_sub_cancel _ _
  exact ⟨hr.eof, hcount, hr.ahead, hr.reported⟩

theorem exec_body_block (call : Handler) (s : State) :
    exec (body call _ block) s = match exec (call _ statements) s.enter.advance with
      | (some body, s₁) =>
        if s₁.leave.current.kind = .eof then
          (none, s₁.leave.report (.unexpected .rbrace s₁.leave.current))
        else (some (.mk s.current body), s₁.leave)
      | (none, s₁) => (none, s₁) := by
  have h : exec (body call _ block) s = exec (call _ statements >>= fun body => do
      modify State.leave
      let token ← Parser.current
      if token.kind = .eof then
        refuse (.unexpected .rbrace token)
      else
        return .mk s.current body) s.enter.advance := rfl
  rw [h, exec_bind]
  obtain ⟨_ | body, s₁⟩ := exec (call _ statements) s.enter.advance
  · rfl
  · show exec (if s₁.leave.current.kind = .eof then _ else _) s₁.leave = _
    dsimp only
    split <;> rfl

theorem rbrace_of_atEnd (h : s.atEnd = true) (hne : s.current.kind ≠ .eof) :
    s.current.kind = .rbrace := by
  simp only [State.atEnd, Bool.or_eq_true, Bool.and_eq_true, beq_iff_eq] at h
  exact (h.resolve_left hne).1

/-- A block is left where its statements end: at the end of the text, where it fails, or at a
closing brace. -/
theorem stops_block (h : AllStop call) : Meets (body call _ block) s Inside := by
  intro heof
  obtain ⟨hreaches, hsome, hend⟩ := h _ statements s.enter.advance trivial heof
  rw [exec_body_block]
  rcases hr : exec (call _ statements) s.enter.advance with ⟨_ | body, s₁⟩ <;>
    rw [hr] at hreaches hsome hend
  · cases hsome
  dsimp only
  split
  · next hkind =>
    refine ⟨(reaches_leave hreaches).trans (State.reaches_report _ _), fun hkeyword => ?_⟩
    have hkeyword' : s₁.leave.current.kind.startsStatement = true := hkeyword
    rw [hkind] at hkeyword'
    cases hkeyword'
  · next hkind =>
    refine ⟨reaches_leave hreaches, ?_⟩
    show s₁.current.kind.isInner = true
    rw [rbrace_of_atEnd hend hkind]
    rfl

theorem stops_statement (h : AllStop call) :
    Meets (body call _ statement) s (statement.Stops s) := by
  have hvalue {s₁ : State} {f : Expr → Parser Stmt} (hf : ∀ (value : Expr) (s₂ : State),
      s₂.current.kind.isInner = true → Meets (f value) s₂ (statement.Stops s)) :
      Meets (call _ (expression .lowest) >>= f) s₁ (statement.Stops s) :=
    (h _ (expression .lowest) s₁ trivial).bind (fun _ _ hnone => Or.inr hnone)
      fun value s₂ _ hs₂ => hf value s₂ hs₂
  have hend {s₁ : State} {st : Stmt} (hs₁ : s₁.current.kind.isInner = true) :
      Meets (do terminator; return st) s₁ (statement.Stops s) := by
    refine Meets.terminator (fun hkind => Meets.pure ?_) (Meets.pure ?_) ?_
    · show s₁.advance.current.kind ≠ .eof
      rw [hkind]
      decide
    · exact Token.Kind.ne_eof_of_isInner hs₁
    · exact Or.inr (State.refused_report hs₁ _)
  refine Meets.current ?_
  cases hkind : s.current.kind
  case kwLet =>
    refine Meets.expect (fun hname => Meets.current ?_) (Or.inl rfl)
    refine Meets.expect (fun _ => Meets.advance (hvalue fun _ _ hs₂ => hend hs₂)) (Or.inr ?_)
    exact State.refused_report (by rw [hname]; rfl) _
  case kwReturn =>
    refine Meets.next (Meets.ite (fun hnext => ?_) fun _ => Meets.advance ?_)
    · refine Meets.terminator (fun hkind => Meets.pure ?_) (Meets.pure ?_) (Or.inl rfl)
      · show s.advance.current.kind ≠ .eof
        rw [hkind]
        decide
      · show s.current.kind ≠ .eof
        rw [hkind]
        decide
    · exact hvalue fun _ _ hs₂ => hend hs₂
  all_goals
    refine hvalue fun _ s₂ hs₂ => Meets.nextIs (Meets.ite (fun hnext => ?_) fun _ => ?_)
    · refine Meets.advance (Meets.pure ?_)
      show s₂.next.kind ≠ .eof
      rw [eq_of_beq hnext]
      decide
    · exact Meets.pure (Token.Kind.ne_eof_of_isInner hs₂)

theorem stops_statements (h : AllStop call) :
    Meets (body call _ statements) s (statements.Stops s) := by
  intro heof
  rw [exec_body_statements]
  split
  · next hend => exact ⟨.refl s, rfl, hend⟩
  obtain ⟨hturn, -⟩ := h _ statement s trivial heof
  rcases hr : exec (call _ statement) s with ⟨_ | first, s₁⟩ <;> rw [hr] at hturn
  · obtain ⟨hreaches, hstops⟩ := h _ statements (recover s₁) trivial (hturn.eof ▸ heof)
    exact ⟨(hturn.trans (reaches_recover s₁)).trans hreaches, hstops⟩
  · have hrest : Meets (do return first :: (← call _ statements)) s₁.advance (statements.Stops s) :=
      (h _ statements s₁.advance trivial).bind (fun _ _ hnone => nomatch hnone.1)
        fun _ _ _ hsome => Meets.pure ⟨rfl, hsome.2⟩
    obtain ⟨hreaches, hstops⟩ := hrest (hturn.eof ▸ heof)
    exact ⟨(hturn.trans s₁.reaches_advance).trans hreaches, hstops⟩

theorem allStop_body (h : AllStop call) : AllStop (body call) := by
  intro α c s hs
  cases c with
  | expression p =>
    exact Meets.inside_bind (h _ operand s trivial) fun left s₁ hs₁ => h _ (operators p left) s₁ hs₁
  | operators p left => exact stops_operators h hs
  | operation token left => exact stops_operation h hs
  | operand => exact stops_operand h
  | conditional token => exact stops_conditional h hs
  | items close => exact stops_items hs.1 h
  | moreItems close => exact stops_moreItems hs.1 h hs.2
  | pairs => exact stops_pairs h
  | block => exact stops_block h
  | statements => exact stops_statements h
  | statement => exact stops_statement h
  | moreParameters => exact stops_moreParameters h hs

end

/-- A call that ends stops where it may. -/
theorem Ends.stops {c : Call α} {s : State} {r : Option α × State} (h : c.Ends s r)
    (hs : c.Ready s) (heof : s.eof.kind = .eof) : c.Stops s r.1 r.2 := by
  obtain ⟨call, hstop, rfl⟩ := h.induct allStop_giveUp fun _ => allStop_body
  exact (allStop_body hstop α c s hs heof).2

end Call

/-! ## Going on after a malformed statement -/

/-- Of the keywords that start a statement, skipping passes at most the first token. In a block it
passes no closing brace. -/
theorem exists_skipped (inBlock moved : Bool) (ts : List Token) :
    ∃ skipped, ts = skipped ++ skipStatement inBlock moved ts ∧
      (∀ t ∈ (if moved then skipped else skipped.tail), t.kind.startsStatement = false) ∧
      (inBlock = true → ∀ t ∈ skipped, t.kind ≠ .rbrace) := by
  fun_induction skipStatement inBlock moved ts with
  | case1 => exact ⟨[], rfl, by simp, by simp⟩
  | case2 => exact ⟨[], rfl, by simp, by simp⟩
  | case3 => exact ⟨[], rfl, by simp, by simp⟩
  | case4 moved token rest hbrace _ hsemicolon =>
    refine ⟨[token], rfl, fun t ht => ?_, fun hblock t ht => ?_⟩
    · obtain rfl : t = token := by
        cases moved <;> simp_all
      rw [hsemicolon]
      rfl
    · rw [List.mem_singleton.mp ht]
      exact fun hkind => hbrace ⟨hkind, hblock⟩
  | case5 moved token rest hbrace hkeyword _ ih =>
    obtain ⟨skipped, hskipped, hnone, hbraces⟩ := ih
    refine ⟨token :: skipped, by rw [List.cons_append, ← hskipped], fun t ht => ?_,
      fun hblock t ht => ?_⟩
    · cases moved with
      | false => exact hnone t ht
      | true =>
        rcases List.mem_cons.mp ht with rfl | ht
        · have hkinds : ¬(t.kind = .kwLet ∨ t.kind = .kwReturn) := fun h => hkeyword ⟨h, rfl⟩
          generalize t.kind = kind at hkinds
          cases kind <;> simp_all [Token.Kind.startsStatement]
        · exact hnone t ht
    · rcases List.mem_cons.mp ht with rfl | ht
      · exact fun hkind => hbrace ⟨hkind, hblock⟩
      · exact hbraces hblock t ht

/-- A keyword is skipped if it is the first token. -/
theorem skipped_ne_nil {s : State} {skipped : List Token} (heof : s.eof.kind = .eof)
    (h : s.ahead = skipped ++ (recover s).ahead)
    (hkeyword : s.current.kind.startsStatement = true) : skipped ≠ [] := by
  rintro rfl
  rcases hts : s.ahead with _ | ⟨t, ts⟩
  · rw [State.current, hts] at hkeyword
    simp [heof, Token.Kind.startsStatement] at hkeyword
  · have hcurrent : s.current = t := by rw [State.current, hts]; rfl
    have hbrace : ¬(t.kind = .rbrace ∧ decide (s.openBlocks > 0) = true) := by
      rintro ⟨hkind, -⟩
      rw [hcurrent, hkind] at hkeyword
      cases hkeyword
    have hlt := length_skipStatement_lt _ hbrace ts
    rw [← hts] at hlt
    exact absurd (congrArg List.length h) (by simpa [recover] using Nat.ne_of_gt hlt)

theorem exists_drop_of_suffix {ts tokens : List Token} {b : Nat} (hb : b ≤ tokens.length)
    (h : ts <:+ tokens.drop b) : ∃ c, b ≤ c ∧ c ≤ tokens.length ∧ ts = tokens.drop c := by
  have hlength := h.length_le
  rw [List.length_drop] at hlength
  exact ⟨tokens.length - ts.length, by omega, by omega,
    List.suffix_iff_eq_drop.mp (h.trans (List.drop_suffix b tokens))⟩

/-- The places where skipping starts and stops. A keyword is skipped where it starts, and nowhere
else. -/
theorem exists_places {tokens : List Token} {c : Nat} {s : State} (heof : s.eof.kind = .eof)
    (hc : c ≤ tokens.length) (hs : s.ahead = tokens.drop c) :
    ∃ j, c ≤ j ∧ j ≤ tokens.length ∧ (recover s).ahead = tokens.drop j ∧
      (∀ k t, c < k → k < j → tokens[k]? = some t → t.kind.startsStatement = false) ∧
      (c < j → tokens[c]? = some s.current) ∧
      (s.current.kind.startsStatement = true → c < j) := by
  obtain ⟨skipped, hskipped, hnone, -⟩ := exists_skipped (s.openBlocks > 0) false s.ahead
  have hskipped' : s.ahead = skipped ++ (recover s).ahead := hskipped
  obtain ⟨j, hcj, hj, hrecover⟩ := exists_drop_of_suffix hc (hs ▸ (reaches_recover s).ahead)
  have hlength : j = c + skipped.length := by
    have hsum := congrArg List.length hskipped'
    rw [hs, hrecover, List.length_append, List.length_drop, List.length_drop] at hsum
    omega
  -- what stands at `c + i` is the `i`-th token that is skipped
  have hget (i : Nat) (hi : i < skipped.length) : tokens[c + i]? = skipped[i]? := by
    rw [← List.getElem?_drop, ← hs, hskipped', List.getElem?_append_left hi]
  refine ⟨j, hcj, hj, hrecover, fun k t hk hk' ht => ?_, fun hlt => ?_, fun hkeyword => ?_⟩
  · obtain ⟨i, rfl⟩ : ∃ i, k = c + (i + 1) := ⟨k - c - 1, by omega⟩
    rw [hget (i + 1) (by omega), ← List.getElem?_tail] at ht
    exact hnone t (List.mem_of_getElem? ht)
  · obtain ⟨first, others, rfl⟩ := List.exists_cons_of_length_pos (l := skipped) (by omega)
    have hfirst := hget 0 (by simp)
    rw [Nat.add_zero] at hfirst
    rw [hfirst, State.current, hskipped']
    rfl
  · have hpos := List.length_pos_iff.mpr (skipped_ne_nil heof hskipped' hkeyword)
    omega

/-- **What skipping a malformed statement loses.** A statement that starts at the token `b` fails
at the token `c`, and reading goes on at the token `j`. Between `c` and `j` no `let` and no
`return` is passed, except perhaps at `c` itself. There it is the statement's own first token, or
it has just been refused as an expression, and in that case it is lost. -/
theorem recover_passes_keyword_iff (source : String) {b : Nat} {s s₁ : State}
    (hb : b < (Token.scan source).tokens.length)
    (hs : s.ahead = (Token.scan source).tokens.drop b) (heof : s.eof = (Token.scan source).eof)
    (h : Call.statement.Ends s (none, s₁)) :
    let tokens := (Token.scan source).tokens
    ∃ c j, b ≤ c ∧ c ≤ j ∧ j ≤ tokens.length ∧ s₁.ahead = tokens.drop c ∧
      (recover s₁).ahead = tokens.drop j ∧
      ((∀ k t, c ≤ k → k < j → k ≠ b → tokens[k]? = some t → t.kind.startsStatement = false) ↔
        c = b ∨ s₁.current.kind.startsStatement = false) ∧
      (∀ k t, c < k → k < j → tokens[k]? = some t → t.kind.startsStatement = false) ∧
      (c ≠ b → s₁.current.kind.startsStatement = true →
        s₁.reported.head? = some (.noExpression s₁.current)) := by
  intro tokens
  have hkind : s.eof.kind = .eof := heof ▸ Token.kind_eof_scan source
  have hreaches : s.Reaches s₁ := h.reaches hkind
  obtain ⟨c, hbc, hc, hahead⟩ := exists_drop_of_suffix (Nat.le_of_lt hb) (hs ▸ hreaches.ahead)
  obtain ⟨j, hcj, hj, hrecover, hlater, hcurrent, hkeyword⟩ :=
    exists_places (hreaches.eof ▸ hkind) hc hahead
  refine ⟨c, j, hbc, hcj, hj, hahead, hrecover, ⟨?_, ?_⟩, hlater, ?_⟩
  · intro hall
    by_cases heq : c = b
    · exact Or.inl heq
    refine Or.inr (Bool.eq_false_iff.mpr fun htrue => ?_)
    have hfalse := hall c s₁.current (Nat.le_refl c) (hkeyword htrue) heq (hcurrent (hkeyword htrue))
    exact absurd htrue (by simp [hfalse])
  · intro hwhen k t hk hk' hkb ht
    rcases Nat.lt_or_eq_of_le hk with hk | rfl
    · exact hlater k t hk hk' ht
    · rw [hcurrent hk'] at ht
      rw [← Option.some.inj ht]
      exact hwhen.resolve_left hkb
  · intro hcb
    rcases h.stops trivial hkind with hplace | hrefused
    · have hlength : s₁.ahead.length = s.ahead.length := congrArg List.length hplace
      rw [hahead, hs, List.length_drop, List.length_drop] at hlength
      omega
    · exact hrefused

/-- A `let` is refused where the value of another `let` is needed, and reading goes on behind it. -/
theorem ends_let_in_let :
    let tokens := (Token.scan "let x = let y = 2; y").tokens
    ∃ s₁, Call.statement.Ends (.ofStream (Token.scan "let x = let y = 2; y")) (none, s₁) ∧
      s₁.ahead = tokens.drop 3 ∧ (recover s₁).ahead = tokens.drop 8 ∧
      s₁.current.kind = .kwLet := by
  intro tokens
  let s := State.ofStream (Token.scan "let x = let y = 2; y")
  have hends := Call.statement.ends_bounded (s := s) (Token.kind_eof_scan _)
  have hnone : (exec (Call.bounded s.reach _ .statement) s).1 = none := by
    rw [← Option.isNone_iff_eq_none]
    decide +kernel
  rw [← Prod.eta (exec _ _), hnone] at hends
  exact ⟨_, hends, by decide +kernel, by decide +kernel, by decide +kernel⟩

/-- The `let` that is lost has been refused as an expression. -/
theorem recover_passes_let_refused :
    ∃ s₁, Call.statement.Ends (.ofStream (Token.scan "let x = let y = 2; y")) (none, s₁) ∧
      s₁.reported.head? = some (.noExpression s₁.current) := by
  obtain ⟨s₁, hends, hahead, -, hkind⟩ := ends_let_in_let
  obtain ⟨c, j, -, -, -, hc, -, -, -, hrefused⟩ :=
    recover_passes_keyword_iff "let x = let y = 2; y" (b := 0) (by decide +kernel) rfl rfl hends
  refine ⟨s₁, hends, hrefused ?_ (by rw [hkind]; rfl)⟩
  rintro rfl
  rw [hahead] at hc
  exact absurd hc (by decide +kernel)

/-- A `let` where the value of another `let` is needed is lost, though only the first one is
malformed. -/
theorem recover_passes_let :
    let tokens := (Token.scan "let x = let y = 2; y").tokens
    ∃ s₁, Call.statement.Ends (.ofStream (Token.scan "let x = let y = 2; y")) (none, s₁) ∧
      s₁.ahead = tokens.drop 3 ∧ (recover s₁).ahead = tokens.drop 8 ∧
      tokens[3]?.map Token.kind = some .kwLet ∧
      (parse "let x = let y = 2; y").program.render = "y;" := by
  obtain ⟨s₁, hends, hahead, hrecover, -⟩ := ends_let_in_let
  exact ⟨s₁, hends, hahead, hrecover, by decide +kernel, by decide +kernel⟩

end Parser

end Monkey
