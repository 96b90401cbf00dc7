import Monkey.Proofs.Parser.Progress
import Monkey.Proofs.Scanning

/-!
# Parsing ends

The parsers have a bound on how deeply they nest. Without it they are the functions that
`Call.body` spells out: each does something itself and calls others, and nothing says that
this comes to an end. A call ends (`Call.Ends`) if taking its calls apart, and theirs, so
and so often leaves no call that matters for the result. It then has one result
(`Call.Ends.unique`), and this is what the bounded parser gives (`Call.Ends.eq_bounded`).

That every call ends is shown by a measure, `Call.need`. Each call that a parser makes
either has fewer tokens ahead of it, or as many and a lower rank. At the end of the text
no token can be passed, and there the ranks are others. One lemma for each parser says that
its calls need less than it does (`Call.same_body`). For the loop over statements this is
`beyond_afterTurn`: a malformed statement may leave the loop where no token is skipped, but
then its reading has passed one.
-/

namespace Monkey

namespace Parser

/-! ## Calls -/

/-- A use of one of the parsers that use each other, by what it reads. -/
inductive Call : Type → Type
  | expression (p : Precedence) : Call Expr
  | operators (p : Precedence) (left : Expr) : Call Expr
  | operation (token : Token) (left : Expr) : Call Expr
  | operand : Call Expr
  | conditional (token : Token) : Call Expr
  | items (close : Token.Kind) : Call (List Expr)
  | moreItems (close : Token.Kind) : Call (List Expr)
  | pairs : Call (List (Expr × Expr))
  | block : Call Block
  | statements : Call (List Stmt)
  | statement : Call Stmt
  | moreParameters : Call (List Ident)

/-- What to do for a call. -/
abbrev Handler := (α : Type) → Call α → Parser α

namespace Call

/-- The parser of a call, with a bound on how deeply further calls nest. -/
def bounded (n : Nat) : Handler
  | _, expression p => Parser.expression n p
  | _, operators p left => Parser.operators n p left
  | _, operation token left => Parser.operation n token left
  | _, operand => Parser.operand n
  | _, conditional token => Parser.conditional n token
  | _, items close => Parser.items n close
  | _, moreItems close => Parser.moreItems n close
  | _, pairs => Parser.pairs n
  | _, block => Parser.block n
  | _, statements => OptionT.lift (Parser.statements n)
  | _, statement => Parser.statement n
  | _, moreParameters => Parser.moreParameters n

/-- What the parser of a call does itself. Further calls are left to `call`, and nothing bounds
them. -/
def body (call : Handler) : Handler
  | _, expression p => do
    let left ← call _ operand
    call _ (operators p left)
  | _, operators p left => do
    let token ← next
    if p.level < (Precedence.ofKind token.kind).level then
      advance
      let longer ← call _ (operation token left)
      call _ (operators p longer)
    else
      return left
  | _, operation token left => do
    if token.kind = .lparen then
      let arguments ← call _ (items .rparen)
      return .call token left arguments
    else if token.kind = .lbracket then
      advance
      let key ← call _ (expression .lowest)
      expect .rbracket
      return .index token left key
    else
      advance
      let right ← call _ (expression (Precedence.ofKind token.kind))
      return .binary token token.literal left right
  | _, operand => do
    let token ← current
    match token.kind with
    | .ident => return .ident (Ident.ofToken token)
    | .int =>
      match Integer.ofDigits? token.literal with
      | some value => return .integer token value
      | none => refuse (.integerRange token)
    | .float => return .float token (Binary64.ofDecimal token.literal)
    | .string => return .string token token.literal
    | .kwTrue => return .boolean token true
    | .kwFalse => return .boolean token false
    | .minus | .bang =>
      advance
      let right ← call _ (expression .unary)
      return .unary token token.literal right
    | .lparen =>
      advance
      let inner ← call _ (expression .lowest)
      expect .rparen
      return inner
    | .lbracket =>
      let elements ← call _ (items .rbracket)
      return .array token elements
    | .lbrace =>
      let entries ← call _ pairs
      return .hash token entries
    | .kwIf => call _ (conditional token)
    | .kwFn =>
      expect .lparen
      let names ← parametersBefore (call _ moreParameters)
      expect .lbrace
      let body ← call _ block
      return .function token names body
    | _ => refuseOperand
  | _, conditional token => do
    expect .lparen
    advance
    let condition ← call _ (expression .lowest)
    expect .rparen
    expect .lbrace
    let consequence ← call _ block
    if ← nextIs .kwElse then
      advance
      expect .lbrace
      let alternative ← call _ block
      return .conditional token condition consequence (some alternative)
    else
      return .conditional token condition consequence none
  | _, items close => do
    if ← nextIs close then
      advance
      return []
    else
      advance
      let first ← call _ (expression .lowest)
      let others ← call _ (moreItems close)
      return first :: others
  | _, moreItems close => do
    if ← nextIs .comma then
      advance
      advance
      let first ← call _ (expression .lowest)
      let others ← call _ (moreItems close)
      return first :: others
    else
      expect close
      return []
  | _, pairs => do
    if ← nextIs .rbrace then
      advance
      return []
    else
      advance
      let key ← call _ (expression .lowest)
      expect .colon
      advance
      let value ← call _ (expression .lowest)
      unless ← nextIs .rbrace do
        expect .comma
      let others ← call _ pairs
      return (key, value) :: others
  | _, block => do
    let brace ← Parser.current
    modify State.enter
    advance
    let body ← call _ statements
    modify State.leave
    let token ← Parser.current
    if token.kind = .eof then
      refuse (.unexpected .rbrace token)
    else
      return .mk brace body
  | _, statements => do
    if (← get).atEnd then
      return []
    else
      match ← OptionT.lift (call _ statement).run with
      | some first =>
        modify State.advance
        let others ← call _ statements
        return first :: others
      | none =>
        modify recover
        call _ statements
  | _, statement => do
    let token ← current
    match token.kind with
    | .kwLet =>
      expect .ident
      let name ← current
      expect .assign
      advance
      let value ← call _ (expression .lowest)
      terminator
      return .bind token (Ident.ofToken name) value
    | .kwReturn =>
      let following ← next
      if following.kind = .semicolon ∨ following.kind = .rbrace ∨ following.kind = .eof then
        terminator
        return .ret token none
      else
        advance
        let value ← call _ (expression .lowest)
        terminator
        return .ret token (some value)
    | _ =>
      let value ← call _ (expression .lowest)
      if ← nextIs .semicolon then
        advance
      return .expr token value
  | _, moreParameters => do
    if ← nextIs .comma then
      advance
      expect .ident
      let name ← current
      let names ← call _ moreParameters
      return Ident.ofToken name :: names
    else
      expect .rparen
      return []

variable {α : Type}

theorem exec_statements (n : Nat) (s : State) :
    exec (bounded n _ statements) s = (some (readAll n s).1, (readAll n s).2) := rfl

theorem exec_body_statements (call : Handler) (s : State) :
    exec (body call _ statements) s =
      if s.atEnd then (some [], s)
      else match exec (call _ statement) s with
        | (some first, s₁) =>
          exec (do return first :: (← call _ statements)) s₁.advance
        | (none, s₁) => exec (call _ statements) (recover s₁) := by
  have hget : exec (get : Parser State) s = (some s, s) := rfl
  rw [body, exec_bind, hget]
  show exec (if s.atEnd then _ else _) s = _
  split
  · rfl
  have hturn : exec (OptionT.lift (call _ statement).run) s =
      (some (exec (call _ statement) s).1, (exec (call _ statement) s).2) := rfl
  rw [exec_bind, hturn]
  obtain ⟨_ | first, s₁⟩ := exec (call _ statement) s <;> rfl

theorem bounded_succ (n : Nat) (c : Call α) (s : State) :
    exec (bounded (n + 1) α c) s = exec (body (bounded n) α c) s := by
  cases c with
  | expression p => rw [bounded, Parser.expression]; rfl
  | operators p left => rw [bounded, Parser.operators]; rfl
  | operation token left => rw [bounded, Parser.operation]; rfl
  | operand =>
    rw [bounded, Parser.operand, body]
    refine congrArg (fun f => exec (current >>= f) s) (funext fun token => ?_)
    cases token.kind
    case int => cases Integer.ofDigits? token.literal <;> rfl
    all_goals rfl
  | conditional token => rw [bounded, Parser.conditional]; rfl
  | items close => rw [bounded, Parser.items]; rfl
  | moreItems close => rw [bounded, Parser.moreItems]; rfl
  | pairs => rw [bounded, Parser.pairs]; rfl
  | block => rw [bounded, Parser.block]; rfl
  | statements =>
    rw [exec_body_statements, exec_statements, readAll_succ]
    split
    · rfl
    · show _ = match exec (Parser.statement n) s with
        | (some first, s₁) => _
        | (none, s₁) => _
      rcases exec (Parser.statement n) s with ⟨_ | first, s₁⟩ <;> rfl
  | statement => rw [bounded, Parser.statement]; rfl
  | moreParameters => rw [bounded, Parser.moreParameters]; rfl

/-- A call with its calls taken apart, and theirs, `n` times. What is deeper is left to `z`. -/
def unroll (z : Handler) : Nat → Handler
  | 0 => z
  | n + 1 => body (unroll z n)

/-- A call ends with a result: its calls nest only so deeply, and what would be done below that
makes no difference. -/
def Ends (c : Call α) (s : State) (r : Option α × State) : Prop :=
  ∃ n, ∀ z, exec (unroll z n α c) s = r

theorem unroll_add (z : Handler) (n k : Nat) : unroll z (n + k) = unroll (unroll z k) n := by
  induction n with
  | zero => rw [Nat.zero_add, unroll]
  | succ n ih => rw [Nat.succ_add, unroll, ih, unroll]

/-- A call ends in one way only. -/
theorem Ends.unique {c : Call α} {s : State} {r r' : Option α × State} (h : c.Ends s r)
    (h' : c.Ends s r') : r = r' := by
  obtain ⟨n, hn⟩ := h
  obtain ⟨k, hk⟩ := h'
  have hnk := hn (unroll (bounded 0) k)
  have hkn := hk (unroll (bounded 0) n)
  rw [← unroll_add] at hnk hkn
  rw [← hnk, ← hkn, Nat.add_comm]

end Call

/-! ## Tokens that are left -/

namespace State

/-- `s'` is `s` after `k` tokens or more, or after all that there are. -/
structure Beyond (s : State) (k : Nat) (s' : State) : Prop where
  eof : s'.eof = s.eof
  length : s'.ahead.length ≤ s.ahead.length - k

variable {s s₁ s₂ : State} {k : Nat}

theorem Beyond.refl (s : State) : s.Beyond 0 s := ⟨rfl, Nat.le_refl _⟩

theorem Beyond.reaches (h : s.Beyond k s₁) (h' : s₁.Reaches s₂) : s.Beyond k s₂ :=
  ⟨h'.eof.trans h.eof, Nat.le_trans h'.ahead.length_le h.length⟩

theorem Beyond.advance (h : s.Beyond k s₁) : s.Beyond (k + 1) s₁.advance := by
  refine ⟨h.eof, ?_⟩
  have hlength := h.length
  simp only [State.advance, List.length_tail]
  omega

theorem ahead_ne_nil_of_current (heof : s.eof.kind = .eof) (h : s.current.kind ≠ .eof) :
    s.ahead ≠ [] := by
  intro hnil
  rw [current, hnil] at h
  exact h heof

theorem ahead_ne_nil_of_atEnd (heof : s.eof.kind = .eof) (h : s.atEnd = false) :
    s.ahead ≠ [] := by
  refine ahead_ne_nil_of_current heof fun hkind => ?_
  simp [atEnd, hkind] at h

/-- If the next token is not the end token, the current one is not either. -/
theorem ahead_ne_nil_of_next (heof : s.eof.kind = .eof) (h : s.next.kind ≠ .eof) :
    s.ahead ≠ [] := by
  intro hnil
  rw [next, hnil] at h
  exact h heof

end State

namespace Call

/-- How deeply a call nests further calls while the number of tokens that are left is the same. -/
def rank : {α : Type} → Call α → Nat
  | _, items _ | _, moreItems _ | _, pairs | _, conditional _ | _, block | _, operators _ _
  | _, moreParameters => 0
  | _, operand | _, operation _ _ => 1
  | _, expression _ => 2
  | _, statement => 3
  | _, statements => 4

/-- How deeply a call nests at the end of the text. -/
def last : {α : Type} → Call α → Nat
  | _, operand | _, operators _ _ | _, moreItems _ | _, conditional _ | _, moreParameters
  | _, statements => 1
  | _, expression _ | _, block => 2
  | _, items _ | _, pairs | _, statement => 3
  | _, operation _ _ => 4

/-- How deeply a call nests at most. -/
def need {α : Type} (c : Call α) (s : State) : Nat :=
  if s.ahead.length = 0 then c.last else 8 * s.ahead.length + c.rank

variable {α β : Type} {c : Call α} {c' : Call β} {s s' : State}

theorem rank_le (c : Call α) : c.rank ≤ 4 := by cases c <;> simp [rank]

theorem last_le (c : Call α) : c.last ≤ 4 := by cases c <;> simp [last]

theorem last_pos (c : Call α) : 0 < c.last := by cases c <;> simp [last]

theorem need_pos (c : Call α) (s : State) : 0 < c.need s := by
  have := c.last_pos
  unfold need
  split <;> omega

theorem need_le_reach (c : Call α) (s : State) : c.need s ≤ s.reach := by
  have hlast := c.last_le
  have hrank := c.rank_le
  unfold need State.reach
  split <;> omega

theorem need_lt_of_shorter (h : s'.ahead.length < s.ahead.length) (c : Call α) (c' : Call β) :
    c'.need s' < c.need s := by
  have hlast := c'.last_le
  have hrank := c'.rank_le
  unfold need
  split <;> split <;> omega

theorem need_lt_past (h : s.Beyond 1 s') (hlast : c'.last < c.last) : c'.need s' < c.need s := by
  have hlength := h.length
  by_cases hs : s.ahead.length = 0
  · have hs' : s'.ahead.length = 0 := by omega
    simpa [need, hs, hs'] using hlast
  · exact need_lt_of_shorter (by omega) c c'

theorem need_lt_inside (h : s.Beyond 0 s') (hs : s.ahead ≠ []) (hrank : c'.rank < c.rank) :
    c'.need s' < c.need s := by
  have hlength := h.length
  have hpos := List.length_pos_iff.mpr hs
  rcases Nat.lt_or_eq_of_le hlength with hlt | heq
  · exact need_lt_of_shorter hlt c c'
  · unfold need
    rw [if_neg (by omega), if_neg (by omega)]
    omega

theorem need_lt_of_rank (h : s.Beyond 0 s') (hlast : c'.last < c.last) (hrank : c'.rank < c.rank) :
    c'.need s' < c.need s := by
  have hlength := h.length
  by_cases hs : s.ahead = []
  · have hs' : s'.ahead.length = 0 := by simpa [hs] using hlength
    simpa [need, hs, hs'] using hlast
  · exact need_lt_inside h hs hrank

end Call

/-! ## Turns of the loop over statements -/

/-- Where the next turn starts: after the statement that has been read, or where reading can go on
after one that is malformed. -/
def afterTurn {α : Type} : Option α × State → State
  | (some _, s) => s.advance
  | (none, s) => recover s

/-- Skipping takes a token, unless it stands on the brace that closes the block. -/
theorem length_skipStatement_lt (inBlock : Bool) {t : Token} (h : ¬(t.kind = .rbrace ∧ inBlock))
    (ts : List Token) : (skipStatement inBlock false (t :: ts)).length < (t :: ts).length := by
  rw [skipStatement, if_neg h, if_neg (by simp)]
  split
  · exact Nat.lt_succ_self _
  · exact Nat.lt_succ_of_le (skipStatement_suffix _ _ _).length_le

/-- A turn passes a token. Where the statement is malformed and its reading stopped at a closing
brace, this is because the statement did not start there. -/
theorem beyond_afterTurn {α : Type} {s : State} {r : Option α × State} (hend : s.atEnd = false)
    (hr : s.Reaches r.2) : s.Beyond 1 (afterTurn r) := by
  obtain ⟨result, s₁⟩ := r
  have hs₁ := (State.Beyond.refl s).reaches hr
  cases result with
  | some a => exact hs₁.advance
  | none =>
    refine ⟨hr.eof, ?_⟩
    show (skipStatement _ false s₁.ahead).length ≤ _
    have hlength : s₁.ahead.length ≤ s.ahead.length := hr.ahead.length_le
    rcases hahead : s₁.ahead with _ | ⟨t, ts⟩
    · exact Nat.zero_le _
    rw [hahead] at hlength
    by_cases hstop : t.kind = .rbrace ∧ s₁.openBlocks > 0
    · have hne : (t :: ts).length ≠ s.ahead.length := by
        intro heq
        have hsame : t :: ts = s.ahead := by
          rw [← hahead]
          exact hr.ahead.eq_of_length (by rw [hahead, heq])
        have hopen : s.openBlocks > 0 := hr.openBlocks ▸ hstop.2
        simp [State.atEnd, State.current, ← hsame, hstop.1, hopen] at hend
      have hle := (skipStatement_suffix (decide (s₁.openBlocks > 0)) false (t :: ts)).length_le
      omega
    · have hlt := length_skipStatement_lt (decide (s₁.openBlocks > 0)) (by simpa using hstop) ts
      omega

/-! ## Two parsers from one state -/

/-- Two parsers make the same of a state. -/
def Same {α : Type} (x y : Parser α) (s : State) : Prop := exec x s = exec y s

namespace Same

variable {α β : Type} {x y : Parser α} {f g : α → Parser β} {s : State}

theorem refl (x : Parser α) (s : State) : Same x x s := rfl

theorem bind (hx : Same x y s) (hf : ∀ a s₁, Gives y s a s₁ → Same (f a) (g a) s₁) :
    Same (x >>= f) (y >>= g) s := by
  unfold Same
  rw [exec_bind, exec_bind, hx]
  rcases hr : exec y s with ⟨_ | a, s₁⟩
  · rfl
  · exact hf a s₁ hr

theorem ite {c : Prop} [Decidable c] {x' y' : Parser α} (ht : c → Same x y s)
    (hf : ¬c → Same x' y' s) : Same (if c then x else x') (if c then y else y') s := by
  split
  · next h => exact ht h
  · next h => exact hf h

theorem current {f g : Token → Parser β} (h : Same (f s.current) (g s.current) s) :
    Same (Parser.current >>= f) (Parser.current >>= g) s := h

theorem next {f g : Token → Parser β} (h : Same (f s.next) (g s.next) s) :
    Same (Parser.next >>= f) (Parser.next >>= g) s := h

theorem nextIs {kind : Token.Kind} {f g : Bool → Parser β}
    (h : Same (f (s.next.kind == kind)) (g (s.next.kind == kind)) s) :
    Same (Parser.nextIs kind >>= f) (Parser.nextIs kind >>= g) s := h

theorem advance {f g : Unit → Parser β} (h : Same (f ()) (g ()) s.advance) :
    Same (Parser.advance >>= f) (Parser.advance >>= g) s := h

theorem expect {kind : Token.Kind} {f g : Unit → Parser β}
    (h : s.next.kind = kind → Same (f ()) (g ()) s.advance) :
    Same (Parser.expect kind >>= f) (Parser.expect kind >>= g) s := by
  refine bind rfl fun u s₁ hu => ?_
  obtain ⟨hkind, rfl⟩ := gives_expect.mp hu
  exact h hkind

end Same

/-! ## No call nests more deeply than it needs -/

namespace Call

/-- Two handlers do the same for all calls that need less than `c` does from `s`, and the second
is orderly. -/
structure Agree {α : Type} (x y : Handler) (c : Call α) (s : State) : Prop where
  eof : s.eof.kind = .eof
  orderly : ∀ β (c' : Call β), Orderly (y β c')
  below : ∀ {β : Type} (c' : Call β) {k : Nat} {s' : State}, s.Beyond k s' →
    c'.need s' < c.need s → Same (x β c') (y β c') s'

namespace Agree

variable {α β γ : Type} {x y : Handler} {c : Call α} {c' : Call β} {s s' : State} {k : Nat}
  {f g : β → Parser γ}

/-- A call that needs less, and then the rest. -/
theorem call (h : Agree x y c s) (hs : s.Beyond k s') (hneed : c'.need s' < c.need s)
    (hf : ∀ a s₁, s.Beyond k s₁ → Same (f a) (g a) s₁) :
    Same (x β c' >>= f) (y β c' >>= g) s' := by
  refine Same.bind (h.below c' hs hneed) fun a s₁ ha => hf a s₁ ?_
  exact hs.reaches ((h.orderly β c').reaches_of_gives ha)

/-- Any call needs less once a token has been passed. -/
theorem need_lt (h : s.Beyond (k + 1) s') (hne : s.ahead ≠ []) : c'.need s' < c.need s := by
  have hlength := h.length
  have hpos := List.length_pos_iff.mpr hne
  exact need_lt_of_shorter (by omega) c c'

end Agree

section

variable {x y : Handler} {s : State}

theorem same_expression {p : Precedence} (h : Agree x y (expression p) s) :
    Same (body x _ (expression p)) (body y _ (expression p)) s := by
  have hs := State.Beyond.refl s
  refine h.call hs (need_lt_of_rank hs (by simp [last]) (by simp [rank])) fun left s₁ hs₁ => ?_
  exact h.below _ hs₁ (need_lt_of_rank hs₁ (by simp [last]) (by simp [rank]))

/-- The end token binds to nothing, so there is a token to pass. -/
theorem same_operators {p : Precedence} {left : Expr} (h : Agree x y (operators p left) s) :
    Same (body x _ (operators p left)) (body y _ (operators p left)) s := by
  refine Same.next (Same.ite (fun hlevel => ?_) fun _ => .refl _ _)
  have hnext : s.next.kind ≠ .eof := by
    intro hkind
    rw [hkind] at hlevel
    exact absurd hlevel (Nat.not_lt_zero _)
  have hne := State.ahead_ne_nil_of_next h.eof hnext
  have hs := (State.Beyond.refl s).advance
  refine Same.advance (h.call hs (Agree.need_lt hs hne) fun longer s₁ hs₁ => ?_)
  exact h.below _ hs₁ (Agree.need_lt hs₁ hne)

theorem same_operation {token : Token} {left : Expr} (h : Agree x y (operation token left) s) :
    Same (body x _ (operation token left)) (body y _ (operation token left)) s := by
  have hs := State.Beyond.refl s
  refine Same.ite (fun _ => ?_) fun _ => Same.ite (fun _ => ?_) fun _ => ?_
  · exact h.call hs (need_lt_of_rank hs (by simp [last]) (by simp [rank])) fun _ _ _ => .refl _ _
  · exact Same.advance (h.call hs.advance (need_lt_past hs.advance (by simp [last]))
      fun _ _ _ => .refl _ _)
  · exact Same.advance (h.call hs.advance (need_lt_past hs.advance (by simp [last]))
      fun _ _ _ => .refl _ _)

theorem same_parametersBefore {α : Type} {c : Call α} {s' : State} {k : Nat} (h : Agree x y c s)
    (hs : s.Beyond (k + 1) s') (hne : s.ahead ≠ []) :
    Same (parametersBefore (x _ moreParameters)) (parametersBefore (y _ moreParameters)) s' := by
  refine Same.nextIs (Same.ite (fun _ => .refl _ _) fun _ => Same.expect fun _ => Same.current ?_)
  exact h.call hs.advance (Agree.need_lt hs.advance hne) fun _ _ _ => .refl _ _

theorem same_operand (h : Agree x y operand s) : Same (body x _ operand) (body y _ operand) s := by
  have hs := State.Beyond.refl s
  refine Same.current ?_
  by_cases hkind : s.current.kind = .eof
  · rw [hkind]
    exact .refl _ _
  have hne := State.ahead_ne_nil_of_current h.eof hkind
  cases hcurrent : s.current.kind
  case int => cases Integer.ofDigits? s.current.literal <;> exact .refl _ _
  case minus | bang | lparen =>
    exact Same.advance (h.call hs.advance (Agree.need_lt hs.advance hne) fun _ _ _ => .refl _ _)
  case lbracket => exact h.call hs (need_lt_inside hs hne (by simp [rank])) fun _ _ _ => .refl _ _
  case lbrace => exact h.call hs (need_lt_inside hs hne (by simp [rank])) fun _ _ _ => .refl _ _
  case kwIf => exact h.below _ hs (need_lt_inside hs hne (by simp [rank]))
  case kwFn =>
    refine Same.expect fun _ => Same.bind (same_parametersBefore h hs.advance hne) ?_
    intro names s₁ hnames
    have horderly := orderly_parametersBefore (h.orderly _ moreParameters)
    have hs₁ := hs.advance.reaches (horderly.reaches_of_gives hnames)
    refine Same.expect fun _ => ?_
    exact h.call hs₁.advance (Agree.need_lt hs₁.advance hne) fun _ _ _ => .refl _ _
  all_goals exact .refl _ _

theorem same_conditional {token : Token} (h : Agree x y (conditional token) s) :
    Same (body x _ (conditional token)) (body y _ (conditional token)) s := by
  refine Same.expect fun hnext => Same.advance ?_
  have hne := State.ahead_ne_nil_of_next h.eof (by simp [hnext])
  have hs := (State.Beyond.refl s).advance.advance
  refine h.call hs (Agree.need_lt hs hne) fun condition s₁ hs₁ => ?_
  refine Same.expect fun _ => Same.expect fun _ => ?_
  have hblock := hs₁.advance.advance
  refine h.call hblock (Agree.need_lt hblock hne) fun consequence s₂ hs₂ => ?_
  refine Same.nextIs (Same.ite (fun _ => Same.advance (Same.expect fun _ => ?_)) fun _ => .refl _ _)
  have helse := hs₂.advance.advance
  exact h.call helse (Agree.need_lt helse hne) fun _ _ _ => .refl _ _

theorem same_items {close : Token.Kind} (h : Agree x y (items close) s) :
    Same (body x _ (items close)) (body y _ (items close)) s := by
  refine Same.nextIs (Same.ite (fun _ => .refl _ _) fun _ => Same.advance ?_)
  have hs := (State.Beyond.refl s).advance
  refine h.call hs (need_lt_past hs (by simp [last])) fun first s₁ hs₁ => ?_
  exact h.call hs₁ (need_lt_past hs₁ (by simp [last])) fun _ _ _ => .refl _ _

theorem same_moreItems {close : Token.Kind} (h : Agree x y (moreItems close) s) :
    Same (body x _ (moreItems close)) (body y _ (moreItems close)) s := by
  refine Same.nextIs (Same.ite (fun hcomma => Same.advance (Same.advance ?_)) fun _ => .refl _ _)
  have hne := State.ahead_ne_nil_of_next h.eof (by simp [eq_of_beq hcomma])
  have hs := (State.Beyond.refl s).advance.advance
  refine h.call hs (Agree.need_lt hs hne) fun first s₁ hs₁ => ?_
  exact h.call hs₁ (Agree.need_lt hs₁ hne) fun _ _ _ => .refl _ _

theorem same_moreParameters (h : Agree x y moreParameters s) :
    Same (body x _ moreParameters) (body y _ moreParameters) s := by
  refine Same.nextIs (Same.ite (fun hcomma => Same.advance ?_) fun _ => .refl _ _)
  have hne := State.ahead_ne_nil_of_next h.eof (by simp [eq_of_beq hcomma])
  have hs := (State.Beyond.refl s).advance.advance
  refine Same.expect fun _ => Same.current ?_
  exact h.call hs (Agree.need_lt hs hne) fun _ _ _ => .refl _ _

/-- After a key comes a colon, so there was a token to pass before it. -/
theorem same_pairs (h : Agree x y pairs s) : Same (body x _ pairs) (body y _ pairs) s := by
  refine Same.nextIs (Same.ite (fun _ => .refl _ _) fun _ => Same.advance ?_)
  have hs := (State.Beyond.refl s).advance
  refine h.call hs (need_lt_past hs (by simp [last])) fun key s₁ hs₁ => ?_
  refine Same.expect fun hcolon => Same.advance ?_
  have hne : s.ahead ≠ [] := by
    have hne₁ := State.ahead_ne_nil_of_next (by rw [hs₁.eof, h.eof]) (by simp [hcolon])
    have hlength := hs₁.length
    intro hnil
    exact hne₁ (List.eq_nil_of_length_eq_zero (by simpa [hnil] using hlength))
  have hvalue := hs₁.advance.advance
  refine h.call hvalue (Agree.need_lt hvalue hne) fun value s₂ hs₂ => Same.nextIs ?_
  refine Same.ite (fun _ => ?_) fun _ => Same.expect fun _ => ?_
  · exact h.call hs₂ (Agree.need_lt hs₂ hne) fun _ _ _ => .refl _ _
  · exact h.call hs₂.advance (Agree.need_lt hs₂.advance hne) fun _ _ _ => .refl _ _

theorem same_block (h : Agree x y block s) : Same (body x _ block) (body y _ block) s := by
  have hs : s.Beyond 1 s.enter.advance :=
    ⟨rfl, ((State.Beyond.refl s).advance).length⟩
  refine Same.current ?_
  show Same (x _ statements >>= _) (y _ statements >>= _) s.enter.advance
  exact h.call hs (need_lt_past hs (by simp [last])) fun _ _ _ => .refl _ _

theorem same_statement (h : Agree x y statement s) :
    Same (body x _ statement) (body y _ statement) s := by
  have hs := State.Beyond.refl s
  refine Same.current ?_
  cases hcurrent : s.current.kind
  case kwLet =>
    have hne := State.ahead_ne_nil_of_current h.eof (by simp [hcurrent])
    refine Same.expect fun _ => Same.current (Same.expect fun _ => Same.advance ?_)
    have hvalue := hs.advance.advance.advance
    exact h.call hvalue (Agree.need_lt hvalue hne) fun _ _ _ => .refl _ _
  case kwReturn =>
    have hne := State.ahead_ne_nil_of_current h.eof (by simp [hcurrent])
    refine Same.next (Same.ite (fun _ => .refl _ _) fun _ => Same.advance ?_)
    exact h.call hs.advance (Agree.need_lt hs.advance hne) fun _ _ _ => .refl _ _
  all_goals
    exact h.call hs (need_lt_of_rank hs (by simp [last]) (by simp [rank])) fun _ _ _ => .refl _ _

theorem same_statements (h : Agree x y statements s) :
    Same (body x _ statements) (body y _ statements) s := by
  unfold Same
  rw [exec_body_statements, exec_body_statements]
  by_cases hend : s.atEnd = true
  · rw [if_pos hend, if_pos hend]
  rw [if_neg hend, if_neg hend]
  have hs := State.Beyond.refl s
  have hne := State.ahead_ne_nil_of_atEnd h.eof (Bool.eq_false_iff.mpr hend)
  have hturn := h.below statement hs (need_lt_inside hs hne (by simp [rank]))
  have hpast := beyond_afterTurn (Bool.eq_false_iff.mpr hend) ((h.orderly _ statement).reaches s)
  rw [hturn]
  rcases hr : exec (y _ statement) s with ⟨_ | first, s₁⟩ <;> rw [hr] at hpast
  · exact h.below statements hpast (Agree.need_lt hpast hne)
  · exact h.call hpast (Agree.need_lt hpast hne) fun _ _ _ => .refl _ _

/-- What a call does itself is the same if all that it calls is, and each call needs less. -/
theorem same_body {α : Type} {c : Call α} (h : Agree x y c s) :
    Same (body x α c) (body y α c) s := by
  cases c with
  | expression p => exact same_expression h
  | operators p left => exact same_operators h
  | operation token left => exact same_operation h
  | operand => exact same_operand h
  | conditional token => exact same_conditional h
  | items close => exact same_items h
  | moreItems close => exact same_moreItems h
  | pairs => exact same_pairs h
  | block => exact same_block h
  | statements => exact same_statements h
  | statement => exact same_statement h
  | moreParameters => exact same_moreParameters h

end

variable {α : Type}

theorem orderly_bounded (n : Nat) (c : Call α) : Orderly (bounded n α c) := by
  cases c with
  | expression p => exact orderly_expression n p
  | operators p left => exact orderly_operators n p left
  | operation token left => exact orderly_operation n token left
  | operand => exact orderly_operand n
  | conditional token => exact orderly_conditional n token
  | items close => exact orderly_items n close
  | moreItems close => exact orderly_moreItems n close
  | pairs => exact orderly_pairs n
  | block => exact orderly_block n
  | statements => exact ⟨reaches_readAll n, fun _ h => nomatch h⟩
  | statement => exact orderly_statement n
  | moreParameters => exact orderly_moreParameters n

/-- A bound that is as large as the need is never used up. -/
theorem same_unroll_bounded (z : Handler) (n : Nat) {c : Call α} {s : State}
    (heof : s.eof.kind = .eof) (hn : c.need s ≤ n) : Same (unroll z n α c) (bounded n α c) s := by
  induction n generalizing α s with
  | zero => exact absurd (c.need_pos s) (by omega)
  | succ n ih =>
    have hagree : Agree (unroll z n) (bounded n) c s := by
      refine ⟨heof, fun β c' => orderly_bounded n c', fun c' k s' hs' hneed => ?_⟩
      exact ih (hs'.eof ▸ heof) (by omega)
    exact (same_body hagree).trans (bounded_succ n c s).symm

theorem ends_bounded (c : Call α) {s : State} (heof : s.eof.kind = .eof) :
    c.Ends s (exec (bounded s.reach α c) s) :=
  ⟨s.reach, fun z => same_unroll_bounded z _ heof (c.need_le_reach s)⟩

/-- What a call ends with is what the bounded parser gives. -/
theorem Ends.eq_bounded {c : Call α} {s : State} {r : Option α × State} (heof : s.eof.kind = .eof)
    (h : c.Ends s r) : r = exec (bounded s.reach α c) s :=
  h.unique (c.ends_bounded heof)

theorem Ends.reaches {c : Call α} {s : State} {r : Option α × State} (heof : s.eof.kind = .eof)
    (h : c.Ends s r) : s.Reaches r.2 := by
  rw [h.eq_bounded heof]
  exact (orderly_bounded _ c).reaches s

/-- A call that gives nothing has added a diagnostic. -/
theorem Ends.reports {c : Call α} {s s' : State} (heof : s.eof.kind = .eof)
    (h : c.Ends s (none, s')) : s.reported.length < s'.reported.length := by
  have heq := h.eq_bounded heof
  have hreports := (orderly_bounded s.reach c).reports s
  rw [← heq] at hreports
  exact hreports rfl

end Call

/-- All statements up to the end are read: each turn passes a token. -/
theorem atEnd_readAll : ∀ (n : Nat) {s : State}, s.eof.kind = .eof → s.ahead.length < n →
    (readAll n s).2.atEnd = true
  | n + 1, s, heof, hn => by
    rw [readAll_succ]
    by_cases hend : s.atEnd = true
    · rw [if_pos hend]
      exact hend
    rw [if_neg hend]
    have hend' := Bool.eq_false_iff.mpr hend
    have hpos := List.length_pos_iff.mpr (State.ahead_ne_nil_of_atEnd heof hend')
    have hpast := beyond_afterTurn hend' ((orderly_statement n).reaches s)
    have heof' : (afterTurn (exec (statement n) s)).eof.kind = .eof := hpast.eof ▸ heof
    have hshort : (afterTurn (exec (statement n) s)).ahead.length < n := by
      have hlength := hpast.length
      omega
    rcases hr : exec (statement n) s with ⟨_ | first, s₁⟩ <;> rw [hr] at heof' hshort
    · exact atEnd_readAll n heof' hshort
    · exact atEnd_readAll n heof' hshort

end Parser

open Monkey.Parser

/-- What parsing gives is what the loop over statements ends with. -/
theorem TokenStream.parse_of_ends {stream : TokenStream} {body : List Stmt} {s : State}
    (heof : stream.eof.kind = .eof) (h : Call.statements.Ends (.ofStream stream) (some body, s)) :
    stream.parse = ⟨⟨body⟩, s.reported.reverse⟩ := by
  have hends := Call.statements.ends_bounded (s := .ofStream stream) heof
  obtain ⟨hbody, hs⟩ := Prod.mk.inj (h.unique hends)
  rw [Option.some.inj hbody, hs]
  rfl

theorem ends_parse (source : String) :
    ∃ body s', Call.statements.Ends (.ofStream (Token.scan source)) (some body, s') ∧
      parse source = ⟨⟨body⟩, s'.reported.reverse⟩ ∧
      s'.current.kind = .eof ∧ s'.ahead = [] ∧ s'.openBlocks = 0 := by
  let start := State.ofStream (Token.scan source)
  have heof : start.eof.kind = .eof := Token.kind_eof_scan source
  have hreaches := reaches_readAll start.reach start
  have hend : (readAll start.reach start).2.atEnd = true :=
    atEnd_readAll start.reach heof (by simp only [State.reach]; omega)
  have hblocks : (readAll start.reach start).2.openBlocks = 0 := hreaches.openBlocks
  have hcurrent : (readAll start.reach start).2.current.kind = .eof := by
    simpa [State.atEnd, hblocks] using hend
  have hahead : (readAll start.reach start).2.ahead = [] := by
    rcases hts : (readAll start.reach start).2.ahead with _ | ⟨t, ts⟩
    · rfl
    -- the end token is the only one of its kind, and it is never among the tokens ahead
    have hmem : t ∈ (Token.scan source).tokens := hreaches.ahead.subset (by simp [hts])
    rw [State.current, hts] at hcurrent
    exact absurd hcurrent (Token.kind_ne_eof_of_mem_scan hmem)
  exact ⟨(readAll start.reach start).1, (readAll start.reach start).2,
    Call.statements.ends_bounded heof, rfl, hcurrent, hahead, hblocks⟩

/-- **Parsing ends, and never fails in silence.** A text is parsed without the bound being used
up, up to its end token and with no block open. From any state each call ends; if it gives
nothing it has added a diagnostic; a block that is left has been entered; and a turn of the loop
over statements passes a token, unless the loop ends. -/
theorem parse_terminates (source : String) :
    (∃ body s', Call.statements.Ends (.ofStream (Token.scan source)) (some body, s') ∧
      parse source = ⟨⟨body⟩, s'.reported.reverse⟩ ∧
      s'.current.kind = .eof ∧ s'.ahead = [] ∧ s'.openBlocks = 0) ∧
    ∀ s : State, s.eof.kind = .eof →
      (∀ (α : Type) (c : Call α), (∃ r, c.Ends s r) ∧ ∀ s', c.Ends s (none, s') →
        s.reported <:+ s'.reported ∧ s.reported.length < s'.reported.length) ∧
      (∀ body s', Call.statements.Ends s.enter.advance (some body, s') →
        s'.openBlocks = s.openBlocks + 1 ∧ s'.leave.openBlocks = s.openBlocks) ∧
      ∀ r, Call.statement.Ends s r →
        s.atEnd = true ∨ (afterTurn r).ahead.length < s.ahead.length := by
  constructor
  · exact ends_parse source
  · intro s heof
    refine ⟨fun α c => ⟨⟨_, c.ends_bounded heof⟩, fun s' h => ⟨?_, h.reports heof⟩⟩, ?_, ?_⟩
    · exact (h.reaches heof).reported
    · intro body s' h
      have hreaches := Call.Ends.reaches (s := s.enter.advance) heof h
      have hblocks : s'.openBlocks = s.openBlocks + 1 := hreaches.openBlocks
      exact ⟨hblocks, by simp [State.leave, hblocks]⟩
    · intro r h
      by_cases hend : s.atEnd = true
      · exact Or.inl hend
      have hend' := Bool.eq_false_iff.mpr hend
      have hpos := List.length_pos_iff.mpr (State.ahead_ne_nil_of_atEnd heof hend')
      have hlength := (beyond_afterTurn hend' (h.reaches heof)).length
      exact Or.inr (by omega)

/-- A closing brace outside of all blocks is passed, though nothing can be read from it. -/
theorem parse_terminates_brace :
    (State.ofStream (Token.scan "\x7d x")).eof.kind = .eof ∧
      (State.ofStream (Token.scan "\x7d x")).atEnd = false ∧
      ∀ r, Call.statement.Ends (.ofStream (Token.scan "\x7d x")) r →
        (afterTurn r).ahead.length < (State.ofStream (Token.scan "\x7d x")).ahead.length := by
  have heof := Token.kind_eof_scan "\x7d x"
  have hend : (State.ofStream (Token.scan "\x7d x")).atEnd = false := by decide +kernel
  refine ⟨heof, hend, fun r hr => ?_⟩
  have hturn := ((parse_terminates "\x7d x").2 _ heof).2.2 r hr
  simpa [hend] using hturn

end Monkey
