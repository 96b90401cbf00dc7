import Mathlib.Data.PEquiv
import Monkey.Proofs.Evaluation.Footprint

/-!
# Renaming frames and functions

Frames and functions are numbered as they come, so the numbers depend on what has run
before. A renaming says which frame of one machine is taken for which of another, and
likewise for functions, one for one (`Renaming`). Two machines are the same up to the
renaming if frames that are taken for each other bind the same names, in the same order,
to values that are alike (`Renaming.Machines`). Frames and functions that are taken for no
other may hold anything. Evaluation in scopes that are taken for each other goes the same
way on both machines, and extends the renaming by the frames and the functions that it
makes (`Simulation.renaming`, `Renaming.Machines.runProgram`).
-/

namespace Monkey

/-- The same names in the same order, with related values. -/
def Bindings.Alike {α β : Type} (R : α → β → Prop) : Bindings α → Bindings β → Prop :=
  List.Forall₂ fun p q => q.1 = p.1 ∧ R p.2 q.2

namespace Bindings.Alike

variable {α β : Type} {R R' : α → β → Prop} {b : Bindings α} {c : Bindings β}

theorem imp (himp : ∀ u v, R u v → R' u v) (h : Alike R b c) : Alike R' b c :=
  List.Forall₂.imp (fun _ _ hpq => ⟨hpq.1, himp _ _ hpq.2⟩) h

theorem get? (h : Alike R b c) (name : String) :
    Option.Rel R (Bindings.get? name b) (Bindings.get? name c) := by
  induction h with
  | nil => exact .none
  | @cons p q _ _ hpq _ ih =>
    obtain ⟨other, u⟩ := p
    obtain ⟨_, v⟩ := q
    obtain ⟨rfl, huv⟩ := hpq
    unfold Bindings.get?
    split
    · exact .some huv
    · exact ih

theorem set (h : Alike R b c) (name : String) {u : α} {v : β} (huv : R u v) :
    Alike R (Bindings.set name u b) (Bindings.set name v c) := by
  induction h with
  | nil => exact .cons ⟨rfl, huv⟩ .nil
  | @cons p q _ _ hpq hrest ih =>
    obtain ⟨other, old⟩ := p
    obtain ⟨_, old'⟩ := q
    obtain ⟨rfl, hold⟩ := hpq
    unfold Bindings.set
    split
    · exact .cons ⟨rfl, huv⟩ hrest
    · exact .cons ⟨rfl, hold⟩ ih

end Bindings.Alike

theorem Store.bindings_size {α : Type} (s : Store α) : s.bindings s.frames.size = [] := by
  simp [Store.bindings]

/-- Which frames and which functions of two machines are taken for each other. -/
structure Renaming where
  frames : Nat ≃. Nat
  numbers : Nat ≃. Nat

namespace Renaming

/-- A later renaming has the same pairs, and perhaps more. -/
instance : Preorder Renaming := Preorder.lift fun w => (w.frames, w.numbers)

/-- Nothing is taken for anything. -/
def nowhere : Renaming := ⟨⊥, ⊥⟩

/-! ## Pairs of numbers -/

/-- All pairs are of numbers below `i` and below `j`. -/
def Below (f : Nat ≃. Nat) (i j : Nat) : Prop := ∀ a b, b ∈ f a → a < i ∧ b < j

/-- One more pair, of the next numbers. -/
def adjoin (f : Nat ≃. Nat) (i j : Nat) (h : Below f i j) : Nat ≃. Nat where
  toFun := Function.update f i (some j)
  invFun := Function.update f.symm j (some i)
  inv a b := by
    have hab : f.symm b = some a ↔ f a = some b := f.eq_some_iff
    by_cases ha : a = i <;> by_cases hb : b = j
    · simp [ha, hb]
    · subst ha
      have hnot : f a ≠ some b := fun hmem => (h a b hmem).1.false
      simp [hb, Ne.symm hb, hab, hnot]
    · subst hb
      have hnot : f a ≠ some b := fun hmem => (h a b hmem).2.false
      simp [ha, Ne.symm ha, hnot]
    · simp [ha, hb, hab]

variable {f : Nat ≃. Nat} {i j : Nat}

theorem mem_adjoin (h : Below f i j) {a b : Nat} :
    b ∈ adjoin f i j h a ↔ (a = i ∧ b = j) ∨ b ∈ f a := by
  show b ∈ Function.update f i (some j) a ↔ _
  by_cases ha : a = i
  · subst ha
    have hnot : f a ≠ some b := fun hmem => (h a b hmem).1.false
    simp [hnot, eq_comm]
  · simp [ha]

theorem mem_adjoin_self (h : Below f i j) : j ∈ adjoin f i j h i :=
  (mem_adjoin h).mpr (.inl ⟨rfl, rfl⟩)

theorem le_adjoin (h : Below f i j) : f ≤ adjoin f i j h :=
  fun _ _ hmem => (mem_adjoin h).mpr (.inr hmem)

theorem Below.adjoin (h : Below f i j) : Below (Renaming.adjoin f i j h) (i + 1) (j + 1) := by
  intro a b hmem
  rcases (mem_adjoin h).mp hmem with ⟨rfl, rfl⟩ | hmem
  · exact ⟨Nat.lt_succ_self _, Nat.lt_succ_self _⟩
  · exact ⟨Nat.lt_succ_of_lt (h a b hmem).1, Nat.lt_succ_of_lt (h a b hmem).2⟩

/-! ## Machines -/

/-- Scopes along frames that are taken for each other. -/
def Scopes (w : Renaming) (s t : Scope) : Prop :=
  List.Forall₂ (fun i j => j ∈ w.frames i) s.chain t.chain

/-- Functions that are taken for each other have the same text and were made in scopes that are
taken for each other. -/
structure Closures (w : Renaming) (f g : Closure) : Prop where
  number : g.number ∈ w.numbers f.number
  parameters : g.parameters = f.parameters
  body : g.body = f.body
  scope : w.Scopes f.scope g.scope

/-- Machines that are the same up to a renaming. -/
structure Machines (w : Renaming) (m n : Machine) : Prop where
  frames : Below w.frames m.store.frames.size n.store.frames.size
  numbers : Below w.numbers m.closures n.closures
  bindings : ∀ i j, j ∈ w.frames i →
    Bindings.Alike (Value.Like w.Closures) (m.store.bindings i) (n.store.bindings j)
  printed : n.printed = m.printed

variable {w w' : Renaming} {m n : Machine} {s t : Scope}

theorem Scopes.mono (hle : w ≤ w') (hs : w.Scopes s t) : w'.Scopes s t :=
  List.Forall₂.imp (fun _ _ hmem => hle.1 _ _ hmem) hs

theorem Closures.mono (hle : w ≤ w') {f g : Closure} (hf : w.Closures f g) : w'.Closures f g :=
  ⟨hle.2 _ _ hf.number, hf.parameters, hf.body, hf.scope.mono hle⟩

/-- Since renamings go one for one, functions are told apart alike. -/
theorem faithful (w : Renaming) : Closure.Faithful w.Closures where
  render hf := by rw [Closure.render, Closure.render, hf.parameters, hf.body]
  number hf hg := by
    constructor
    · intro heq
      have hmem := hg.number
      rw [← heq] at hmem
      exact Option.mem_unique hf.number hmem
    · intro heq
      have hmem := hg.number
      rw [← heq] at hmem
      exact w.numbers.inj hf.number hmem

namespace Machines

theorem nowhere (hprinted : n.printed = m.printed) : Renaming.nowhere.Machines m n where
  frames _ _ hmem := nomatch hmem
  numbers _ _ hmem := nomatch hmem
  bindings _ _ hmem := nomatch hmem
  printed := hprinted

theorem find? (hm : w.Machines m n) (name : String) {is js : List Nat}
    (h : List.Forall₂ (fun i j => j ∈ w.frames i) is js) :
    Option.Rel (Value.Like w.Closures) (m.store.find? name is) (n.store.find? name js) := by
  induction h with
  | nil => exact .none
  | @cons i j _ _ hij _ ih =>
    have hget := (hm.bindings i j hij).get? name
    unfold Store.find?
    generalize Bindings.get? name (m.store.bindings i) = x,
      Bindings.get? name (n.store.bindings j) = y at hget ⊢
    cases hget with
    | some h => exact .some h
    | none => exact ih

/-- The new frames of two machines, whatever is around them, are taken for each other. -/
theorem enclose (hm : w.Machines m n) (s t : Scope) :
    ∃ w', w ≤ w' ∧ w'.Machines (m.enclose s).2 (n.enclose t).2 ∧
      n.store.frames.size ∈ w'.frames m.store.frames.size := by
  have hle : w ≤ ⟨adjoin w.frames _ _ hm.frames, w.numbers⟩ := ⟨le_adjoin hm.frames, le_rfl⟩
  refine ⟨_, hle, ⟨?_, hm.numbers, fun i j hij => ?_, hm.printed⟩,
    mem_adjoin_self hm.frames⟩
  · show Below _ (m.store.enclose s).2.frames.size (n.store.enclose t).2.frames.size
    rw [Store.size_enclose, Store.size_enclose]
    exact hm.frames.adjoin
  · show Bindings.Alike _ ((m.store.enclose s).2.bindings i) ((n.store.enclose t).2.bindings j)
    rw [Store.bindings_enclose, Store.bindings_enclose]
    rcases (mem_adjoin hm.frames).mp hij with ⟨rfl, rfl⟩ | hij
    · rw [Store.bindings_size, Store.bindings_size]
      exact .nil
    · exact (hm.bindings i j hij).imp fun _ _ => Value.Like.mono (fun _ _ => .mono hle) _

theorem newClosure (hm : w.Machines m n) (hs : w.Scopes s t) (parameters : List Ident)
    (body : Block) :
    ∃ w', w ≤ w' ∧ w'.Machines { m with closures := m.closures + 1 }
        { n with closures := n.closures + 1 } ∧
      w'.Closures ⟨m.closures, parameters, body, s⟩ ⟨n.closures, parameters, body, t⟩ := by
  have hle : w ≤ ⟨w.frames, adjoin w.numbers _ _ hm.numbers⟩ := ⟨le_rfl, le_adjoin hm.numbers⟩
  refine ⟨_, hle, ⟨hm.frames, hm.numbers.adjoin, fun i j hij => ?_, hm.printed⟩,
    mem_adjoin_self hm.numbers, rfl, rfl, hs.mono hle⟩
  exact (hm.bindings i j hij).imp fun _ _ => Value.Like.mono (fun _ _ => .mono hle) _

/-- Since renamings go one for one, both machines write to the frame of a pair or neither does. -/
theorem define (hm : w.Machines m n) (hs : w.Scopes s t) (name : String) {u v : Value}
    (huv : Value.Like w.Closures u v) : w.Machines (m.define s name u) (n.define t name v) where
  frames := by
    show Below _ (m.store.set s name u).frames.size (n.store.set t name v).frames.size
    rw [Store.size_set, Store.size_set]
    exact hm.frames
  numbers := hm.numbers
  printed := hm.printed
  bindings i j hij := by
    obtain ⟨hframe, -⟩ := List.forall₂_cons.mp hs
    have hsame : i = s.frame ↔ j = t.frame :=
      ⟨fun hi => Option.mem_unique (hi ▸ hij) hframe, fun hj => w.frames.inj (hj ▸ hij) hframe⟩
    obtain ⟨hi, hj⟩ := hm.frames i j hij
    show Bindings.Alike _ ((m.store.set s name u).bindings i) ((n.store.set t name v).bindings j)
    rw [Store.bindings_set, Store.bindings_set]
    simp only [hi, hj, and_true, ← hsame]
    split
    · exact (hm.bindings i j hij).set name huv
    · exact hm.bindings i j hij

theorem print (hm : w.Machines m n) (text : String) : w.Machines (m.print text) (n.print text) :=
  ⟨hm.frames, hm.numbers, hm.bindings, congrArg (· ++ text) hm.printed⟩

/-- Two machines with a new outermost scope each. -/
theorem root (hm : w.Machines m n) :
    ∃ w', w ≤ w' ∧ w'.Machines m.root.2 n.root.2 ∧ w'.Scopes m.root.1 n.root.1 := by
  obtain ⟨w', hle, hm', hframe⟩ := hm.enclose default default
  exact ⟨w', hle, hm', .cons hframe .nil⟩

theorem drain (hm : w.Machines m n) : w.Machines m.drain.2 n.drain.2 :=
  ⟨hm.frames, hm.numbers, hm.bindings, rfl⟩

end Machines

end Renaming

/-- Two runs on machines that are the same up to a renaming. -/
def Simulation.renaming : Simulation Renaming where
  closures := Renaming.Closures
  scopes := Renaming.Scopes
  owned := Renaming.Scopes
  machines := Renaming.Machines
  closures_mono hle hf := hf.mono hle
  scopes_mono hle hs := hs.mono hle
  owned_mono hle hs := hs.mono hle
  scopes_of_owned hs := hs
  scopes_of_closures hf := hf.scope
  parameters hf := hf.parameters
  body hf := hf.body
  faithful := Renaming.faithful
  get? hm hs name := hm.find? name hs
  enclose hm hs := by
    obtain ⟨w', hle, hm', hframe⟩ := hm.enclose _ _
    exact ⟨w', hle, hm', .cons hframe (hs.mono hle)⟩
  newClosure hm hs parameters body := hm.newClosure hs parameters body
  define hm hs name huv := hm.define hs name huv
  print hm text := hm.print text

/-- A program runs alike on machines that are the same up to a renaming, and leaves them so. -/
theorem Renaming.Machines.runProgram {w : Renaming} {m n : Machine} {s t : Scope}
    (hm : w.Machines m n) (hs : w.Scopes s t) (maxDepth : Nat) (p : Program) :
    ∃ w', w ≤ w' ∧
      Outcome.Like w'.Closures ((Evaluator.standard maxDepth).runProgram p s m).1
        ((Evaluator.standard maxDepth).runProgram p t n).1 ∧
      w'.Machines ((Evaluator.standard maxDepth).runProgram p s m).2
        ((Evaluator.standard maxDepth).runProgram p t n).2 :=
  Simulation.finishes_runProgram (S := Simulation.renaming) maxDepth p hm hs

end Monkey
