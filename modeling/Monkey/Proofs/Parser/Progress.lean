import Monkey.Proofs.Parser.Success

/-!
# What every run of a parser keeps

A run passes tokens and adds diagnostics. It never goes back, takes a diagnostic
away or leaves a block open (`State.Reaches`). If it gives nothing, it has added a
diagnostic (`Orderly.reports`). Each parser has this property because its parts
have it (`Orderly.bind`). Only `block` changes the count of open blocks on its
way, and it restores it.
-/

namespace Monkey.Parser

namespace State

/-- `s'` is `s` after some tokens have been passed and some diagnostics added. -/
structure Reaches (s s' : State) : Prop where
  eof : s'.eof = s.eof
  openBlocks : s'.openBlocks = s.openBlocks
  ahead : s'.ahead <:+ s.ahead
  reported : s.reported <:+ s'.reported

variable {s s₁ s₂ : State}

theorem Reaches.refl (s : State) : s.Reaches s :=
  ⟨rfl, rfl, List.suffix_refl _, List.suffix_refl _⟩

theorem Reaches.trans (h₁ : s.Reaches s₁) (h₂ : s₁.Reaches s₂) : s.Reaches s₂ where
  eof := h₂.eof.trans h₁.eof
  openBlocks := h₂.openBlocks.trans h₁.openBlocks
  ahead := h₂.ahead.trans h₁.ahead
  reported := h₁.reported.trans h₂.reported

theorem Reaches.length_reported_le (h : s.Reaches s₁) :
    s.reported.length ≤ s₁.reported.length :=
  h.reported.length_le

theorem reaches_advance (s : State) : s.Reaches s.advance :=
  ⟨rfl, rfl, List.tail_suffix _, List.suffix_refl _⟩

theorem reaches_report (s : State) (d : Diagnostic) : s.Reaches (s.report d) :=
  ⟨rfl, rfl, List.suffix_refl _, List.suffix_cons _ _⟩

end State

theorem skipStatement_suffix (inBlock moved : Bool) (ts : List Token) :
    skipStatement inBlock moved ts <:+ ts := by
  fun_induction skipStatement inBlock moved ts with
  | case1 => exact List.suffix_refl _
  | case2 => exact List.suffix_refl _
  | case3 => exact List.suffix_refl _
  | case4 => exact List.suffix_cons _ _
  | case5 moved token rest _ _ _ ih => exact ih.trans (List.suffix_cons token rest)

theorem reaches_recover (s : State) : s.Reaches (recover s) :=
  ⟨rfl, rfl, skipStatement_suffix _ _ _, List.suffix_refl _⟩

variable {α β : Type}

/-- A parser that keeps to `State.Reaches` and gives nothing only after reporting. -/
structure Orderly (x : Parser α) : Prop where
  reaches : ∀ s : State, s.Reaches (exec x s).2
  reports : ∀ s : State, (exec x s).1 = none → s.reported.length < (exec x s).2.reported.length

namespace Orderly

theorem pure (a : α) : Orderly (Pure.pure a : Parser α) :=
  ⟨State.Reaches.refl, fun _ h => by simp [exec_pure] at h⟩

theorem bind {x : Parser α} {f : α → Parser β} (hx : Orderly x) (hf : ∀ a, Orderly (f a)) :
    Orderly (x >>= f) := by
  constructor
  · intro s
    have h := hx.reaches s
    rw [exec_bind]
    rcases hr : exec x s with ⟨_ | a, s₁⟩
    · rwa [hr] at h
    · rw [hr] at h
      exact h.trans ((hf a).reaches s₁)
  · intro s hnone
    have h := hx.reaches s
    rw [exec_bind] at hnone ⊢
    rcases hr : exec x s with ⟨_ | a, s₁⟩
    · have := hx.reports s
      rw [hr] at this
      exact this rfl
    · rw [hr] at h hnone
      exact Nat.lt_of_le_of_lt h.length_reported_le ((hf a).reports s₁ hnone)

theorem ite {c : Prop} [Decidable c] {x y : Parser α} (hx : Orderly x) (hy : Orderly y) :
    Orderly (if c then x else y) := by
  split
  · exact hx
  · exact hy

theorem reaches_of_gives {x : Parser α} (hx : Orderly x) {s s' : State} {a : α}
    (h : Gives x s a s') : s.Reaches s' := by
  have := hx.reaches s
  rwa [h] at this

end Orderly

theorem orderly_current : Orderly current :=
  ⟨State.Reaches.refl, fun _ h => nomatch h⟩

theorem orderly_next : Orderly next :=
  ⟨State.Reaches.refl, fun _ h => nomatch h⟩

theorem orderly_nextIs (kind : Token.Kind) : Orderly (nextIs kind) :=
  ⟨State.Reaches.refl, fun _ h => nomatch h⟩

theorem orderly_advance : Orderly advance :=
  ⟨State.reaches_advance, fun _ h => nomatch h⟩

theorem orderly_refuse (d : Diagnostic) : Orderly (refuse d : Parser α) :=
  ⟨fun s => State.reaches_report s d, fun s _ => by simp [exec_refuse, State.report]⟩

theorem orderly_refuseOperand : Orderly (refuseOperand : Parser α) :=
  orderly_current.bind fun _ => orderly_refuse _

theorem orderly_expect (kind : Token.Kind) : Orderly (expect kind) :=
  orderly_next.bind fun _ => .ite orderly_advance (orderly_refuse _)

theorem orderly_terminator : Orderly terminator :=
  orderly_next.bind fun _ => .ite orderly_advance (.ite (.pure _) (orderly_refuse _))

theorem orderly_moreParameters : ∀ n, Orderly (moreParameters n)
  | 0 => orderly_refuseOperand
  | n + 1 => by
    rw [moreParameters]
    refine (orderly_nextIs _).bind fun _ => .ite ?_ ?_
    · exact orderly_advance.bind fun _ => (orderly_expect _).bind fun _ =>
        orderly_current.bind fun _ => (orderly_moreParameters n).bind fun _ => .pure _
    · exact (orderly_expect _).bind fun _ => .pure _

/-- A parameter list whose parameters after the first are read by `more`. -/
def parametersBefore (more : Parser (List Ident)) : Parser (List Ident) := do
  if ← nextIs .rparen then
    advance
    return []
  else
    expect .ident
    let name ← current
    let names ← more
    return Ident.ofToken name :: names

theorem orderly_parametersBefore {more : Parser (List Ident)} (h : Orderly more) :
    Orderly (parametersBefore more) := by
  refine (orderly_nextIs _).bind fun _ => .ite ?_ ?_
  · exact orderly_advance.bind fun _ => .pure _
  · exact (orderly_expect _).bind fun _ => orderly_current.bind fun _ => h.bind fun _ => .pure _

theorem orderly_parameters (n : Nat) : Orderly (parameters n) :=
  orderly_parametersBefore (orderly_moreParameters n)

mutual

theorem orderly_expression : ∀ n p, Orderly (expression n p)
  | 0, _ => orderly_refuseOperand
  | n + 1, p => by
    rw [expression]
    exact (orderly_operand n).bind fun left => orderly_operators n p left
termination_by structural n => n

theorem orderly_operators : ∀ n p left, Orderly (operators n p left)
  | 0, _, _ => .pure _
  | n + 1, p, left => by
    rw [operators]
    refine orderly_next.bind fun token => .ite ?_ (.pure _)
    exact orderly_advance.bind fun _ => (orderly_operation n token left).bind fun longer =>
      orderly_operators n p longer
termination_by structural n => n

theorem orderly_operation : ∀ n token left, Orderly (operation n token left)
  | 0, _, _ => orderly_refuseOperand
  | n + 1, token, left => by
    rw [operation]
    refine .ite ?_ (.ite ?_ ?_)
    · exact (orderly_items n _).bind fun _ => .pure _
    · exact orderly_advance.bind fun _ => (orderly_expression n _).bind fun _ =>
        (orderly_expect _).bind fun _ => .pure _
    · exact orderly_advance.bind fun _ => (orderly_expression n _).bind fun _ => .pure _
termination_by structural n => n

theorem orderly_operand : ∀ n, Orderly (operand n)
  | 0 => orderly_refuseOperand
  | n + 1 => by
    rw [operand]
    refine orderly_current.bind fun token => ?_
    cases token.kind
    case int =>
      cases Integer.ofDigits? token.literal
      · exact orderly_refuse _
      · exact .pure _
    case minus => exact orderly_advance.bind fun _ => (orderly_expression n _).bind fun _ => .pure _
    case bang => exact orderly_advance.bind fun _ => (orderly_expression n _).bind fun _ => .pure _
    case lparen =>
      exact orderly_advance.bind fun _ => (orderly_expression n _).bind fun _ =>
        (orderly_expect _).bind fun _ => .pure _
    case lbracket => exact (orderly_items n _).bind fun _ => .pure _
    case lbrace => exact (orderly_pairs n).bind fun _ => .pure _
    case kwIf => exact orderly_conditional n token
    case kwFn =>
      exact (orderly_expect _).bind fun _ => (orderly_parameters n).bind fun _ =>
        (orderly_expect _).bind fun _ => (orderly_block n).bind fun _ => .pure _
    all_goals first | exact .pure _ | exact orderly_refuseOperand
termination_by structural n => n

theorem orderly_conditional : ∀ n token, Orderly (conditional n token)
  | 0, _ => orderly_refuseOperand
  | n + 1, token => by
    rw [conditional]
    refine (orderly_expect _).bind fun _ => orderly_advance.bind fun _ =>
      (orderly_expression n _).bind fun _ => (orderly_expect _).bind fun _ =>
      (orderly_expect _).bind fun _ => (orderly_block n).bind fun _ =>
      (orderly_nextIs _).bind fun _ => .ite ?_ (.pure _)
    exact orderly_advance.bind fun _ => (orderly_expect _).bind fun _ =>
      (orderly_block n).bind fun _ => .pure _
termination_by structural n => n

theorem orderly_items : ∀ n close, Orderly (items n close)
  | 0, _ => orderly_refuseOperand
  | n + 1, close => by
    rw [items]
    refine (orderly_nextIs _).bind fun _ => .ite ?_ ?_
    · exact orderly_advance.bind fun _ => .pure _
    · exact orderly_advance.bind fun _ => (orderly_expression n _).bind fun _ =>
        (orderly_moreItems n close).bind fun _ => .pure _
termination_by structural n => n

theorem orderly_moreItems : ∀ n close, Orderly (moreItems n close)
  | 0, _ => orderly_refuseOperand
  | n + 1, close => by
    rw [moreItems]
    refine (orderly_nextIs _).bind fun _ => .ite ?_ ?_
    · exact orderly_advance.bind fun _ => orderly_advance.bind fun _ =>
        (orderly_expression n _).bind fun _ => (orderly_moreItems n close).bind fun _ => .pure _
    · exact (orderly_expect _).bind fun _ => .pure _
termination_by structural n => n

theorem orderly_pairs : ∀ n, Orderly (pairs n)
  | 0 => orderly_refuseOperand
  | n + 1 => by
    rw [pairs]
    refine (orderly_nextIs _).bind fun _ => .ite ?_ ?_
    · exact orderly_advance.bind fun _ => .pure _
    refine orderly_advance.bind fun _ => (orderly_expression n _).bind fun _ =>
      (orderly_expect _).bind fun _ => orderly_advance.bind fun _ =>
      (orderly_expression n _).bind fun _ => (orderly_nextIs _).bind fun _ => .ite ?_ ?_
    · exact (orderly_pairs n).bind fun _ => .pure _
    · exact (orderly_expect _).bind fun _ => (orderly_pairs n).bind fun _ => .pure _
termination_by structural n => n

theorem orderly_block : ∀ n, Orderly (block n)
  | 0 => orderly_refuseOperand
  | n + 1 => by
    have hleave {s s₁ : State} {body : List Stmt} (h : readAll n s.enter.advance = (body, s₁)) :
        s.Reaches s₁.leave := by
      have hr := (State.reaches_advance _).trans (reaches_readAll n s.enter.advance)
      rw [h] at hr
      -- the count that `enter` raises is the one that `leave` lowers
      have hcount : s₁.openBlocks - 1 = s.openBlocks := by
        rw [hr.openBlocks]
        exact Nat.add_sub_cancel _ _
      exact ⟨hr.eof, hcount, hr.ahead, hr.reported⟩
    constructor
    · intro s
      rw [exec_block]
      rcases h : readAll n s.enter.advance with ⟨body, s₁⟩
      dsimp only
      split
      · exact (hleave h).trans (State.reaches_report _ _)
      · exact hleave h
    · intro s hnone
      rw [exec_block] at hnone ⊢
      rcases h : readAll n s.enter.advance with ⟨body, s₁⟩
      rw [h] at hnone
      dsimp only at hnone ⊢
      split
      · exact Nat.lt_of_le_of_lt (hleave h).length_reported_le (Nat.lt_succ_self _)
      · next hk => simp [hk] at hnone
termination_by structural n => n

theorem reaches_readAll : ∀ (n : Nat) (s : State), s.Reaches (readAll n s).2
  | 0, s => .refl s
  | n + 1, s => by
    rw [readAll_succ]
    split
    · exact .refl s
    have h := (orderly_statement n).reaches s
    rcases hs : exec (statement n) s with ⟨_ | first, s₁⟩ <;> rw [hs] at h
    · exact (h.trans (reaches_recover s₁)).trans (reaches_readAll n _)
    · exact (h.trans s₁.reaches_advance).trans (reaches_readAll n _)
termination_by structural n => n

theorem orderly_statement : ∀ n, Orderly (statement n)
  | 0 => orderly_refuseOperand
  | n + 1 => by
    rw [statement]
    refine orderly_current.bind fun token => ?_
    cases token.kind
    case kwLet =>
      exact (orderly_expect _).bind fun _ => orderly_current.bind fun _ =>
        (orderly_expect _).bind fun _ => orderly_advance.bind fun _ =>
        (orderly_expression n _).bind fun _ => orderly_terminator.bind fun _ => .pure _
    case kwReturn =>
      refine orderly_next.bind fun _ => .ite ?_ ?_
      · exact orderly_terminator.bind fun _ => .pure _
      · exact orderly_advance.bind fun _ => (orderly_expression n _).bind fun _ =>
          orderly_terminator.bind fun _ => .pure _
    all_goals
      exact (orderly_expression n _).bind fun _ => (orderly_nextIs _).bind fun _ =>
        .ite (orderly_advance.bind fun _ => .pure _) (.pure _)
termination_by structural n => n

end

end Monkey.Parser
