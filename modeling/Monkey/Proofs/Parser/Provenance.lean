import Monkey.Proofs.Nodes
import Monkey.Proofs.Parser.Anchors
import Monkey.Proofs.Printing.RoundTrip

/-!
# Where the nodes of a program come from

Every node of a program has a token of the text that the program was parsed from, and the token
fits the node. This holds of all programs, also of those that come with diagnostics, because it is
shown of the runs that give a tree, whatever was skipped around them.

A tree that is read from one state to another has its tokens at the places from the one to the
other (`Between`). So what is read before an operator, a parenthesis or a bracket comes before it in
the text, and what is read after it comes after it (`Between.around`). The proofs follow the parsers
by induction on the bound on nesting, as those of `printable_expression` and its companions do.
-/

namespace Monkey

open Monkey.Parser
open Token (Kind)

/-- A token comes before another one in a list of tokens. -/
def Token.Precedes (all : List Token) (t u : Token) : Prop :=
  ∃ i j : Nat, i < j ∧ all[i]? = some t ∧ all[j]? = some u

namespace Tree.Node

/-- The tokens of the operand on the left, or of the callee or the target, come before the node's
token, and those of the operand on the right, or of the arguments or the key, after it. -/
def Ordered (all : List Token) : Node → Prop
  | expr (.binary token _ left right) =>
    (∀ n ∈ left.nodes, n.token.Precedes all token) ∧ ∀ n ∈ right.nodes, token.Precedes all n.token
  | expr (.call token callee arguments) =>
    (∀ n ∈ callee.nodes, n.token.Precedes all token) ∧
      ∀ n ∈ Expr.nodesAll arguments, token.Precedes all n.token
  | expr (.index token target key) =>
    (∀ n ∈ target.nodes, n.token.Precedes all token) ∧ ∀ n ∈ key.nodes, token.Precedes all n.token
  | _ => True

end Tree.Node

namespace Parser

variable {stream : TokenStream}

/-! ## States on a text -/

/-- A state on a token of a text whose tokens have literals that their kinds allow. -/
structure State.Stands (stream : TokenStream) (s : State) : Prop where
  within : s.Within stream
  spelled : s.Spelled

namespace State.Stands

variable {s s' : State}

theorem of_reaches (hs : s.Stands stream) (h : s.Reaches s') : s'.Stands stream :=
  ⟨hs.within.reaches h, hs.spelled.of_reaches h⟩

theorem after {α : Type} {x : Parser α} {a : α} (hs : s.Stands stream) (hx : Orderly x)
    (h : Gives x s a s') : s'.Stands stream :=
  hs.of_reaches (hx.reaches_of_gives h)

theorem advance (hs : s.Stands stream) : s.advance.Stands stream :=
  hs.of_reaches s.reaches_advance

theorem place_lt_advance (hs : s.Stands stream) (h : s.ahead ≠ []) :
    s.place stream < s.advance.place stream := by
  have hpos := List.length_pos_iff.mpr h
  have hle := hs.within.ahead.length_le
  simp only [place, State.advance, List.length_tail]
  omega

end State.Stands

/-! ## Trees between two states -/

/-- The nodes are well formed, and their tokens are at the places from one state to another. -/
def Between (stream : TokenStream) (s s' : State) (ns : List Tree.Node) : Prop :=
  ∀ n ∈ ns, n.Fits ∧ n.Ordered stream.toList ∧
    ∃ i, s.place stream ≤ i ∧ i ≤ s'.place stream ∧ stream.toList[i]? = some n.token

namespace Between

variable {s s₁ s₂ s' : State} {n : Tree.Node} {ns ms : List Tree.Node}

theorem nil : Between stream s s' [] := by
  simp [Between]

theorem append (hns : Between stream s s' ns) (hms : Between stream s s' ms) :
    Between stream s s' (ns ++ ms) := by
  intro n hn
  rcases List.mem_append.mp hn with hn | hn
  · exact hns n hn
  · exact hms n hn

theorem widen (h₁ : s.Reaches s₁) (h₂ : s₂.Reaches s') (hns : Between stream s₁ s₂ ns) :
    Between stream s s' ns := by
  intro n hn
  obtain ⟨hfits, hordered, i, hi, hi', hn⟩ := hns n hn
  exact ⟨hfits, hordered, i, Nat.le_trans (State.place_le_of_reaches stream h₁) hi,
    Nat.le_trans hi' (State.place_le_of_reaches stream h₂), hn⟩

/-- A node that is named after the current token of a state on the way. -/
theorem cons (hs₁ : s₁.Within stream) (h₁ : s.Reaches s₁) (h₂ : s₁.Reaches s')
    (htoken : n.token = s₁.current) (hfits : n.Fits) (hordered : n.Ordered stream.toList)
    (hns : Between stream s s' ns) : Between stream s s' (n :: ns) := by
  intro m hm
  rcases List.mem_cons.mp hm with rfl | hm
  · exact ⟨hfits, hordered, s₁.place stream, State.place_le_of_reaches stream h₁,
      State.place_le_of_reaches stream h₂, htoken ▸ hs₁.getElem?_place⟩
  · exact hns m hm

/-- A node that is named after a token, with what is read before the token and after it. -/
theorem around {left right : List Tree.Node} (hs₁ : s₁.Stands stream) (h₁ : s.Reaches s₁)
    (h₂ : s₁.advance.Reaches s') (hne : s₁.next.kind ≠ .eof)
    (hleft : Between stream s s₁ left) (hright : Between stream s₁.advance.advance s' right)
    (htoken : n.token = s₁.next) (hfits : n.Fits)
    (hordered : (∀ m ∈ left, m.token.Precedes stream.toList s₁.next) →
      (∀ m ∈ right, s₁.next.Precedes stream.toList m.token) → n.Ordered stream.toList) :
    Between stream s s' (n :: (left ++ right)) := by
  have hplace := hs₁.advance.within.getElem?_place
  have hlt := hs₁.place_lt_advance (State.ahead_ne_nil_of_next hs₁.spelled.eof hne)
  have hlt' := hs₁.advance.place_lt_advance
    (State.ahead_ne_nil_of_current hs₁.advance.spelled.eof hne)
  have h₁' := h₁.trans s₁.reaches_advance
  refine cons hs₁.advance.within h₁' h₂ htoken hfits (hordered ?_ ?_) (append ?_ ?_)
  · intro m hm
    obtain ⟨-, -, i, -, hi, hm⟩ := hleft m hm
    exact ⟨i, s₁.advance.place stream, Nat.lt_of_le_of_lt hi hlt, hm, hplace⟩
  · intro m hm
    obtain ⟨-, -, i, hi, -, hm⟩ := hright m hm
    exact ⟨s₁.advance.place stream, i, Nat.lt_of_lt_of_le hlt' hi, hplace, hm⟩
  · exact hleft.widen (.refl s) (s₁.reaches_advance.trans h₂)
  · exact hright.widen (h₁'.trans s₁.advance.reaches_advance) (.refl s')

end Between

/-! ## Names -/

theorem between_moreParameters : ∀ (n : Nat) {s : State} {ids : List Ident} {s' : State},
    s.Stands stream → Gives (moreParameters n) s ids s' →
      Between stream s s' (ids.map fun id => .expr (.ident id))
  | 0, _, _, _, _, h => absurd h (by simp [moreParameters])
  | n + 1, s, ids, s', hs, h => by
    rw [gives_moreParameters] at h
    split at h
    · obtain ⟨hident, others, h, rfl⟩ := h
      have hreaches := s.reaches_advance.trans s.advance.reaches_advance
      have hreaches' := (orderly_moreParameters n).reaches_of_gives h
      have hothers := between_moreParameters n hs.advance.advance h
      exact .cons hs.advance.advance.within hreaches hreaches' rfl ⟨hident, rfl⟩ trivial
        (hothers.widen hreaches (.refl s'))
    · obtain ⟨-, -, rfl⟩ := h
      exact .nil

theorem between_parameters {n : Nat} {s : State} {ids : List Ident} {s' : State}
    (hs : s.Stands stream) (h : Gives (parameters n) s ids s') :
    Between stream s s' (ids.map fun id => .expr (.ident id)) := by
  rw [gives_parameters] at h
  split at h
  · obtain ⟨-, rfl⟩ := h
    exact .nil
  · obtain ⟨hident, others, h, rfl⟩ := h
    have hreaches' := (orderly_moreParameters n).reaches_of_gives h
    have hothers := between_moreParameters n hs.advance h
    exact .cons hs.advance.within s.reaches_advance hreaches' rfl ⟨hident, rfl⟩ trivial
      (hothers.widen s.reaches_advance (.refl s'))

/-! ## Trees -/

/-- No expression starts with the end token. -/
theorem kind_ne_eof_of_gives : ∀ (n : Nat) {p : Precedence} {s : State} {e : Expr} {s' : State},
    Gives (expression n p) s e s' → s.current.kind ≠ .eof
  | 0, _, _, _, _, h => absurd h (by simp [expression])
  | 1, _, _, _, _, h => by
    obtain ⟨left, s₁, h, -⟩ := gives_expression.mp h
    exact absurd h (by simp [operand])
  | n + 2, _, _, _, _, h => by
    obtain ⟨left, s₁, h, -⟩ := gives_expression.mp h
    intro heof
    rw [gives_operand, heof] at h
    exact h

mutual

theorem between_expression : ∀ (n : Nat) {p : Precedence} {s : State} {e : Expr} {s' : State},
    s.Stands stream → Gives (expression n p) s e s' → Between stream s s' e.nodes
  | 0, _, _, _, _, _, h => absurd h (by simp [expression])
  | n + 1, p, s, e, s', hs, h => by
    obtain ⟨left, s₁, h₁, h₂⟩ := gives_expression.mp h
    have hreaches := (orderly_operand n).reaches_of_gives h₁
    exact between_operators n (hs.of_reaches hreaches) hreaches (between_operand n hs h₁) h₂
termination_by structural n => n

theorem between_operators : ∀ (n : Nat) {p : Precedence} {left : Expr} {s₀ s : State} {e : Expr}
    {s' : State}, s.Stands stream → s₀.Reaches s → Between stream s₀ s left.nodes →
      Gives (operators n p left) s e s' → Between stream s₀ s' e.nodes
  | 0, _, _, _, _, _, _, _, _, hl, h => by
    obtain ⟨rfl, rfl⟩ := gives_operators_zero.mp h
    exact hl
  | n + 1, p, left, s₀, s, e, s', hs, hs₀, hl, h => by
    rw [gives_operators] at h
    split at h
    · next hlevel =>
      obtain ⟨longer, s₁, h₁, h₂⟩ := h
      have hpos : 0 < (Precedence.ofKind s.next.kind).level :=
        Nat.lt_of_le_of_lt (Nat.zero_le _) hlevel
      have hreaches := s.reaches_advance.trans ((orderly_operation n _ _).reaches_of_gives h₁)
      exact between_operators n (hs.of_reaches hreaches) (hs₀.trans hreaches)
        (between_operation n hs hs₀ hpos hl h₁) h₂
    · obtain ⟨rfl, rfl⟩ := h
      exact hl
termination_by structural n => n

/-- What has been read comes before the operator, the parenthesis or the bracket. -/
theorem between_operation : ∀ (n : Nat) {left : Expr} {s₀ s : State} {e : Expr} {s' : State},
    s.Stands stream → s₀.Reaches s → 0 < (Precedence.ofKind s.next.kind).level →
      Between stream s₀ s left.nodes → Gives (operation n s.next left) s.advance e s' →
        Between stream s₀ s' e.nodes
  | 0, _, _, _, _, _, _, _, _, _, h => absurd h (by simp [operation])
  | n + 1, left, s₀, s, e, s', hs, hs₀, hpos, hl, h => by
    have hne := Kind.ne_eof_of_isInner (Precedence.isInner_of_lt (p := .lowest) hpos)
    have hreaches := (orderly_operation (n + 1) _ _).reaches_of_gives h
    rw [gives_operation] at h
    split at h
    · next hkind =>
      obtain ⟨arguments, h, rfl⟩ := h
      rw [Expr.nodes]
      exact .around hs hs₀ hreaches hne hl (between_items n hs.advance h) rfl hkind And.intro
    split at h
    · next hkind =>
      obtain ⟨key, s₁, h, -, rfl, rfl⟩ := h
      have hkey := between_expression n hs.advance.advance h
      rw [Expr.nodes]
      exact .around hs hs₀ hreaches hne hl (hkey.widen (.refl _) s₁.reaches_advance) rfl hkind
        And.intro
    · next hparen hbracket =>
      obtain ⟨right, h, rfl⟩ := h
      have hmem := mem_binaryKinds hpos hparen hbracket
      have htext := literal_of_operator (.inr hmem) (hs.advance.spelled.current rfl hne)
      rw [Expr.nodes]
      exact .around hs hs₀ hreaches hne hl (between_expression n hs.advance.advance h) rfl
        ⟨hmem, rfl, htext⟩ And.intro
termination_by structural n => n

theorem between_operand : ∀ (n : Nat) {s : State} {e : Expr} {s' : State},
    s.Stands stream → Gives (operand n) s e s' → Between stream s s' e.nodes
  | 0, _, _, _, _, h => absurd h (by simp [operand])
  | n + 1, s, e, s', hs, h => by
    have hreaches := (orderly_operand (n + 1)).reaches_of_gives h
    have hnode {m : Tree.Node} {ms : List Tree.Node} (htoken : m.token = s.current)
        (hfits : m.Fits) (hordered : m.Ordered stream.toList) (hms : Between stream s s' ms) :
        Between stream s s' (m :: ms) :=
      .cons hs.within (.refl s) hreaches htoken hfits hordered hms
    have hunary (hk : s.current.kind ∈ unaryKinds) {right : Expr}
        (h : Gives (expression n .unary) s.advance right s') :
        Between stream s s' (Expr.unary s.current s.current.literal right).nodes := by
      have hne : s.current.kind ≠ .eof := ne_of_mem_of_not_mem hk (by decide)
      have htext := literal_of_operator (.inl hk) (hs.spelled.current rfl hne)
      have hright := between_expression n hs.advance h
      rw [Expr.nodes]
      exact hnode rfl ⟨hk, rfl, htext⟩ trivial (hright.widen s.reaches_advance (.refl s'))
    rw [gives_operand] at h
    split at h
    · next hk =>
      obtain ⟨rfl, rfl⟩ := h
      exact hnode rfl ⟨hk, rfl⟩ trivial .nil
    · next hk =>
      obtain ⟨value, hv, rfl, rfl⟩ := h
      exact hnode rfl ⟨hk, Integer.toInt_of_narrow? hv⟩ trivial .nil
    · next hk =>
      obtain ⟨rfl, rfl⟩ := h
      exact hnode rfl ⟨hk, rfl⟩ trivial .nil
    · next hk =>
      obtain ⟨rfl, rfl⟩ := h
      exact hnode rfl ⟨hk, rfl, hs.spelled.current hk (by decide)⟩ trivial .nil
    · next hk =>
      obtain ⟨rfl, rfl⟩ := h
      exact hnode rfl hk trivial .nil
    · next hk =>
      obtain ⟨rfl, rfl⟩ := h
      exact hnode rfl hk trivial .nil
    · next hk =>
      obtain ⟨right, h, rfl⟩ := h
      exact hunary (by simp [hk, unaryKinds]) h
    · next hk =>
      obtain ⟨right, h, rfl⟩ := h
      exact hunary (by simp [hk, unaryKinds]) h
    · obtain ⟨inner, s₁, h, -, rfl, rfl⟩ := h
      exact (between_expression n hs.advance h).widen s.reaches_advance s₁.reaches_advance
    · next hk =>
      obtain ⟨elements, h, rfl⟩ := h
      have helements := between_items n hs h
      exact hnode rfl hk trivial (helements.widen s.reaches_advance (.refl s'))
    · next hk =>
      obtain ⟨entries, h, rfl⟩ := h
      exact hnode rfl hk trivial (between_pairs n hs h)
    · next hk => exact between_conditional n hs hk h
    · next hk =>
      obtain ⟨-, names, s₁, h₁, hbrace, body, h₂, rfl⟩ := h
      have hs₁ := hs.advance.after (orderly_parameters n) h₁
      have hreaches₁ := s.reaches_advance.trans ((orderly_parameters n).reaches_of_gives h₁)
      have hreaches₂ := s₁.reaches_advance.trans ((orderly_block n).reaches_of_gives h₂)
      have hnames := between_parameters hs.advance h₁
      have hbody := between_block n hs₁.advance hbrace h₂
      rw [Expr.nodes]
      refine hnode rfl hk trivial (.append ?_ ?_)
      · exact hnames.widen s.reaches_advance hreaches₂
      · exact hbody.widen (hreaches₁.trans s₁.reaches_advance) (.refl s')
    · exact h.elim
termination_by structural n => n

theorem between_conditional : ∀ (n : Nat) {s : State} {e : Expr} {s' : State},
    s.Stands stream → s.current.kind = .kwIf → Gives (conditional n s.current) s e s' →
      Between stream s s' e.nodes
  | 0, _, _, _, _, _, h => absurd h (by simp [conditional])
  | n + 1, s, e, s', hs, hif, h => by
    have hreaches := (orderly_conditional (n + 1) _).reaches_of_gives h
    obtain ⟨-, c, s₁, h₁, -, hbrace, b, s₂, h₂, h⟩ := gives_conditional.mp h
    have hs₁ := hs.advance.advance.after (orderly_expression n _) h₁
    have hs₂ := hs₁.advance.advance.after (orderly_block n) h₂
    have hstart := s.reaches_advance.trans s.advance.reaches_advance
    have hreaches₁ := hstart.trans ((orderly_expression n _).reaches_of_gives h₁)
    have hopen := s₁.reaches_advance.trans s₁.advance.reaches_advance
    have hreaches₂ := hopen.trans ((orderly_block n).reaches_of_gives h₂)
    have hc := between_expression n hs.advance.advance h₁
    have hb := between_block n hs₁.advance.advance hbrace h₂
    split at h
    · obtain ⟨hbrace', a, h₃, rfl⟩ := h
      have helse := s₂.reaches_advance.trans s₂.advance.reaches_advance
      have hreaches₃ := helse.trans ((orderly_block n).reaches_of_gives h₃)
      have ha := between_block n hs₂.advance.advance hbrace' h₃
      rw [Expr.nodes]
      refine .cons hs.within (.refl s) hreaches rfl hif trivial (.append ?_ (.append ?_ ?_))
      · exact hc.widen hstart (hreaches₂.trans hreaches₃)
      · exact hb.widen (hreaches₁.trans hopen) hreaches₃
      · exact ha.widen ((hreaches₁.trans hreaches₂).trans helse) (.refl s')
    · obtain ⟨rfl, rfl⟩ := h
      rw [Expr.nodes]
      refine .cons hs.within (.refl s) hreaches rfl hif trivial (.append ?_ ?_)
      · exact hc.widen hstart hreaches₂
      · exact hb.widen (hreaches₁.trans hopen) (.refl s')
termination_by structural n => n

/-- The first item is behind the token before the items. -/
theorem between_items : ∀ (n : Nat) {close : Kind} {s : State} {es : List Expr} {s' : State},
    s.Stands stream → Gives (items n close) s es s' →
      Between stream s.advance s' (Expr.nodesAll es)
  | 0, _, _, _, _, _, h => absurd h (by simp [items])
  | n + 1, close, s, es, s', hs, h => by
    rw [gives_items] at h
    split at h
    · obtain ⟨-, rfl⟩ := h
      exact .nil
    · obtain ⟨first, s₁, h₁, others, h₂, rfl⟩ := h
      have hreaches₁ := (orderly_expression n _).reaches_of_gives h₁
      have hreaches₂ := (orderly_moreItems n _).reaches_of_gives h₂
      have hfirst := between_expression n hs.advance h₁
      have hothers := between_moreItems n (hs.advance.of_reaches hreaches₁) h₂
      exact .append (hfirst.widen (.refl _) hreaches₂) (hothers.widen hreaches₁ (.refl s'))
termination_by structural n => n

theorem between_moreItems : ∀ (n : Nat) {close : Kind} {s : State} {es : List Expr} {s' : State},
    s.Stands stream → Gives (moreItems n close) s es s' → Between stream s s' (Expr.nodesAll es)
  | 0, _, _, _, _, _, h => absurd h (by simp [moreItems])
  | n + 1, close, s, es, s', hs, h => by
    rw [gives_moreItems] at h
    split at h
    · obtain ⟨first, s₁, h₁, others, h₂, rfl⟩ := h
      have hstart := s.reaches_advance.trans s.advance.reaches_advance
      have hreaches₁ := (orderly_expression n _).reaches_of_gives h₁
      have hreaches₂ := (orderly_moreItems n _).reaches_of_gives h₂
      have hfirst := between_expression n hs.advance.advance h₁
      have hothers := between_moreItems n (hs.advance.advance.of_reaches hreaches₁) h₂
      exact .append (hfirst.widen hstart hreaches₂)
        (hothers.widen (hstart.trans hreaches₁) (.refl s'))
    · obtain ⟨-, -, rfl⟩ := h
      exact .nil
termination_by structural n => n

theorem between_pairs : ∀ (n : Nat) {s : State} {ps : List (Expr × Expr)} {s' : State},
    s.Stands stream → Gives (pairs n) s ps s' → Between stream s s' (Expr.nodesPairs ps)
  | 0, _, _, _, _, h => absurd h (by simp [pairs])
  | n + 1, s, ps, s', hs, h => by
    rw [gives_pairs] at h
    split at h
    · obtain ⟨-, rfl⟩ := h
      exact .nil
    obtain ⟨key, s₁, h₁, -, value, s₂, h₂, h⟩ := h
    have hreaches₁ := s.reaches_advance.trans ((orderly_expression n _).reaches_of_gives h₁)
    have hcolon := s₁.reaches_advance.trans s₁.advance.reaches_advance
    have hreaches₂ := hcolon.trans ((orderly_expression n _).reaches_of_gives h₂)
    have hs₁ := hs.of_reaches hreaches₁
    have hs₂ := hs₁.of_reaches hreaches₂
    have hkey := between_expression n hs.advance h₁
    have hvalue := between_expression n hs₁.advance.advance h₂
    have hentry {others : List (Expr × Expr)} {s₃ : State} (h₃ : s₂.Reaches s₃)
        (h : Gives (pairs n) s₃ others s') :
        Between stream s s' (Expr.nodesPairs ((key, value) :: others)) := by
      have hreaches₃ := (orderly_pairs n).reaches_of_gives h
      have hothers := between_pairs n (hs₂.of_reaches h₃) h
      refine .append ?_ (.append ?_ ?_)
      · exact hkey.widen s.reaches_advance (hreaches₂.trans (h₃.trans hreaches₃))
      · exact hvalue.widen (hreaches₁.trans hcolon) (h₃.trans hreaches₃)
      · exact hothers.widen (hreaches₁.trans (hreaches₂.trans h₃)) (.refl s')
    split at h
    · obtain ⟨others, h₃, rfl⟩ := h
      exact hentry (.refl s₂) h₃
    · obtain ⟨-, others, h₃, rfl⟩ := h
      exact hentry s₂.reaches_advance h₃
termination_by structural n => n

theorem between_block : ∀ (n : Nat) {s : State} {b : Block} {s' : State},
    s.Stands stream → s.current.kind = .lbrace → Gives (block n) s b s' →
      Between stream s s' b.nodes
  | 0, _, _, _, _, _, h => absurd h (by simp [block])
  | n + 1, s, b, s', hs, hbrace, h => by
    have hreaches := (orderly_block (n + 1)).reaches_of_gives h
    obtain ⟨body, s₁, hbody, -, rfl, rfl⟩ := gives_block.mp h
    have henter : s.enter.Stands stream :=
      ⟨⟨hs.within.ahead, hs.within.eof⟩, ⟨hs.spelled.eof, hs.spelled.ahead⟩⟩
    have hall := between_readAll n henter.advance
    rw [hbody] at hall
    -- entering and leaving a block do not move
    have hinside : Between stream s.advance s₁.leave (Stmt.nodesAll body) := hall
    exact .cons hs.within (.refl s) hreaches rfl hbrace trivial
      (hinside.widen s.reaches_advance (.refl _))
termination_by structural n => n

/-- The statements that are kept have their tokens on the way, whatever was skipped between. -/
theorem between_readAll : ∀ (n : Nat) {s : State}, s.Stands stream →
    Between stream s (readAll n s).2 (Stmt.nodesAll (readAll n s).1)
  | 0, _, _ => .nil
  | n + 1, s, hs => by
    rw [readAll_succ]
    split
    · exact .nil
    have hreaches := (orderly_statement n).reaches s
    rcases hst : exec (statement n) s with ⟨_ | first, s₁⟩ <;> rw [hst] at hreaches
    · have hskipped := hreaches.trans (reaches_recover s₁)
      exact (between_readAll n (hs.of_reaches hskipped)).widen hskipped (.refl _)
    · have hpassed := hreaches.trans s₁.reaches_advance
      have hfirst := between_statement n hs hst
      have hothers := between_readAll n (hs.of_reaches hpassed)
      exact .append
        (hfirst.widen (.refl s) (s₁.reaches_advance.trans (reaches_readAll n s₁.advance)))
        (hothers.widen hpassed (.refl _))
termination_by structural n => n

theorem between_statement : ∀ (n : Nat) {s : State} {st : Stmt} {s' : State},
    s.Stands stream → Gives (statement n) s st s' → Between stream s s' st.nodes
  | 0, _, _, _, _, h => absurd h (by simp [statement])
  | n + 1, s, st, s', hs, h => by
    have hreaches := (orderly_statement (n + 1)).reaches_of_gives h
    rw [gives_statement] at h
    split at h
    · next hlet =>
      obtain ⟨hname, -, value, s₁, h, hend, rfl⟩ := h
      have hreaches₁ := orderly_terminator.reaches_of_gives hend
      have hstart := s.advance.reaches_advance.trans s.advance.advance.reaches_advance
      have hvalue := between_expression n hs.advance.advance.advance h
      have hrest := hstart.trans (((orderly_expression n _).reaches_of_gives h).trans hreaches₁)
      rw [Stmt.nodes]
      refine .cons hs.within (.refl s) hreaches rfl hlet trivial ?_
      refine .cons hs.advance.within s.reaches_advance hrest rfl ⟨hname, rfl⟩ trivial ?_
      exact hvalue.widen (s.reaches_advance.trans hstart) hreaches₁
    · next hreturn =>
      split at h
      · obtain ⟨-, rfl⟩ := h
        exact .cons hs.within (.refl s) hreaches rfl hreturn trivial .nil
      · obtain ⟨value, s₁, h, hend, rfl⟩ := h
        have hvalue := between_expression n hs.advance h
        exact .cons hs.within (.refl s) hreaches rfl hreturn trivial
          (hvalue.widen s.reaches_advance (orderly_terminator.reaches_of_gives hend))
    · next hlet hreturn =>
      obtain ⟨value, s₁, h, rfl, rfl⟩ := h
      have hvalue := between_expression n hs h
      have hend : s₁.Reaches (if s₁.next.kind = .semicolon then s₁.advance else s₁) := by
        split
        · exact s₁.reaches_advance
        · exact .refl s₁
      exact .cons hs.within (.refl s) hreaches rfl ⟨hlet, hreturn, kind_ne_eof_of_gives n h⟩ trivial
        (hvalue.widen (.refl s) hend)
termination_by structural n => n

end

/-- A statement is named after the token it starts with. -/
theorem token_of_gives : ∀ (n : Nat) {s : State} {st : Stmt} {s' : State},
    Gives (statement n) s st s' → st.token = s.current
  | 0, _, _, _, h => absurd h (by simp [statement])
  | n + 1, s, st, s', h => by
    rw [gives_statement] at h
    split at h
    · obtain ⟨-, -, value, s₁, -, -, rfl⟩ := h
      rfl
    · split at h
      · obtain ⟨-, rfl⟩ := h
        rfl
      · obtain ⟨value, s₁, -, -, rfl⟩ := h
        rfl
    · obtain ⟨value, s₁, -, -, rfl⟩ := h
      rfl

/-- Each turn of the loop over statements passes a token, so statements start one after the
other. -/
theorem pairwise_readAll : ∀ (n : Nat) {s : State}, s.Stands stream →
    ((readAll n s).1.map Stmt.token).Pairwise (Token.Precedes stream.toList)
  | 0, _, _ => .nil
  | n + 1, s, hs => by
    rw [readAll_succ]
    split
    · exact .nil
    next hend =>
    have hahead := State.ahead_ne_nil_of_atEnd hs.spelled.eof (Bool.eq_false_iff.mpr hend)
    have hreaches := (orderly_statement n).reaches s
    rcases hst : exec (statement n) s with ⟨_ | first, s₁⟩ <;> rw [hst] at hreaches
    · exact pairwise_readAll n (hs.of_reaches (hreaches.trans (reaches_recover s₁)))
    have hs₁ := hs.of_reaches (hreaches.trans s₁.reaches_advance)
    refine .cons (fun t ht => ?_) (pairwise_readAll n hs₁)
    obtain ⟨st, hst', rfl⟩ := List.mem_map.mp ht
    obtain ⟨-, -, i, hi, -, hplace⟩ := between_readAll n hs₁ _ (Stmt.mem_nodesAll hst')
    have hlt : s.place stream < s₁.advance.place stream := by
      have hpos := List.length_pos_iff.mpr hahead
      have hle := hs.within.ahead.length_le
      have hle₁ : s₁.ahead.length ≤ s.ahead.length := hreaches.ahead.length_le
      simp only [State.place, State.advance, List.length_tail]
      omega
    refine ⟨s.place stream, i, Nat.lt_of_lt_of_le hlt hi, ?_, hplace⟩
    rw [token_of_gives n hst]
    exact hs.within.getElem?_place

end Parser

/-- **Nodes carry the tokens they were read from.** Take the program that a text gives, partial or
not. Each of its nodes, which are those of its outline, has a token of the text that fits the node.
In each operation, call and index the tokens of what is on the left come before the node's token,
and those of what is on the right after it. The statements start one after the other. A token does
not come twice in the text, so each of them says where it was read. -/
theorem nodes_wellFormed (source : String) :
    let all := (Token.scan source).toList
    let program := (parse source).program
    all.Nodup ∧ program.outline = program.nodes.map Tree.Node.line ∧
      (∀ n ∈ program.nodes, n.token ∈ (Token.scan source).tokens ∧ n.Fits ∧ n.Ordered all) ∧
      (program.statements.map Stmt.token).Pairwise (Token.Precedes all) := by
  intro all program
  let start := State.ofStream (Token.scan source)
  have hstart : start.Stands (Token.scan source) :=
    ⟨⟨List.suffix_refl _, rfl⟩, ⟨Token.kind_eof_scan source, fun _ => Token.spells_of_mem_scan⟩⟩
  refine ⟨Token.nodup_scan source, program.outline_eq, fun n hn => ?_,
    pairwise_readAll start.reach hstart⟩
  obtain ⟨hfits, hordered, i, -, -, hplace⟩ := between_readAll start.reach hstart n hn
  refine ⟨?_, hfits, hordered⟩
  have hmem : n.token ∈ all := List.mem_of_getElem? hplace
  rcases List.mem_append.mp hmem with hmem | hmem
  · exact hmem
  · have hkind := hfits.kind_ne_eof
    rw [List.mem_singleton.mp hmem] at hkind
    exact absurd (Token.kind_eof_scan source) hkind

end Monkey
