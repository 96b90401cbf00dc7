import Mathlib.Logic.Basic
import Monkey.Proofs.Printing.Bare
import Monkey.Value.Printer

/-!
# Marking trees by how deep they nest

The nodes of a program are inside of function bodies and branches, each inside of so many. A
mark puts something in place of the location of every node, and what it puts there may
depend on that number (`Program.marked`). Nothing else is changed, so a tree that is marked has
the same bare tree (`Program.bare_marked`).

Two more things are read off a tree: the names that it looks up (`Program.reads`), and how many
bodies and branches there are inside each other at most (`Program.nesting`). An allowance puts
a condition on each, and a tree obeys it if every node does (`Expr.Obeys`).
-/

namespace Monkey

/-! ## Marks -/

/-- A token with another location. -/
def Token.marked (mark : Nat → Location → Location) (depth : Nat) (t : Token) : Token :=
  { t with location := mark depth t.location }

mutual

/-- An expression inside of so many bodies and branches, with marks on its nodes. Names that are
not looked up keep their tokens. -/
def Expr.marked (mark : Nat → Location → Location) : Nat → Expr → Expr
  | d, .ident id => .ident ⟨id.token.marked mark d, id.name⟩
  | d, .boolean t b => .boolean (t.marked mark d) b
  | d, .integer t n => .integer (t.marked mark d) n
  | d, .float t x => .float (t.marked mark d) x
  | d, .string t s => .string (t.marked mark d) s
  | d, .array t xs => .array (t.marked mark d) (Expr.markedAll mark d xs)
  | d, .hash t ps => .hash (t.marked mark d) (Expr.markedPairs mark d ps)
  | d, .unary t op x => .unary (t.marked mark d) op (x.marked mark d)
  | d, .binary t op l r => .binary (t.marked mark d) op (l.marked mark d) (r.marked mark d)
  | d, .conditional t c b none =>
    .conditional (t.marked mark d) (c.marked mark d) (b.marked mark (d + 1)) none
  | d, .conditional t c b (some a) =>
    .conditional (t.marked mark d) (c.marked mark d) (b.marked mark (d + 1))
      (some (a.marked mark (d + 1)))
  | d, .function t ps b => .function (t.marked mark d) ps (b.marked mark (d + 1))
  | d, .call t f xs => .call (t.marked mark d) (f.marked mark d) (Expr.markedAll mark d xs)
  | d, .index t x k => .index (t.marked mark d) (x.marked mark d) (k.marked mark d)
termination_by structural _ x => x

def Expr.markedAll (mark : Nat → Location → Location) : Nat → List Expr → List Expr
  | _, [] => []
  | d, x :: xs => x.marked mark d :: Expr.markedAll mark d xs
termination_by structural _ xs => xs

def Expr.markedPairs (mark : Nat → Location → Location) :
    Nat → List (Expr × Expr) → List (Expr × Expr)
  | _, [] => []
  | d, (k, x) :: ps => (k.marked mark d, x.marked mark d) :: Expr.markedPairs mark d ps
termination_by structural _ ps => ps

/-- A statement inside of so many bodies and branches, with marks on its nodes. -/
def Stmt.marked (mark : Nat → Location → Location) : Nat → Stmt → Stmt
  | d, .bind t name x => .bind (t.marked mark d) name (x.marked mark d)
  | d, .ret t none => .ret (t.marked mark d) none
  | d, .ret t (some x) => .ret (t.marked mark d) (some (x.marked mark d))
  | d, .expr t x => .expr (t.marked mark d) (x.marked mark d)
termination_by structural _ s => s

def Stmt.markedAll (mark : Nat → Location → Location) : Nat → List Stmt → List Stmt
  | _, [] => []
  | d, s :: ss => s.marked mark d :: Stmt.markedAll mark d ss
termination_by structural _ ss => ss

/-- A body or a branch with marks on its nodes. It counts itself. -/
def Block.marked (mark : Nat → Location → Location) : Nat → Block → Block
  | d, .mk t ss => .mk (t.marked mark d) (Stmt.markedAll mark d ss)
termination_by structural _ b => b

end

/-- A program with marks on its nodes. -/
def Program.marked (mark : Nat → Location → Location) (p : Program) : Program :=
  ⟨Stmt.markedAll mark 0 p.statements⟩

theorem Block.statements_marked (mark : Nat → Location → Location) (d : Nat) (b : Block) :
    (b.marked mark d).statements = Stmt.markedAll mark d b.statements := by
  cases b
  rfl

section Bare

variable {mark : Nat → Location → Location}

mutual

theorem Expr.bare_marked : ∀ (x : Expr) (d : Nat), (x.marked mark d).bare = x.bare
  | .ident _, _ | .boolean _ _, _ | .integer _ _, _ | .float _ _, _ | .string _ _, _ => rfl
  | .array _ xs, d => by simp only [Expr.marked, Expr.bare, Expr.bareAll_markedAll xs]
  | .hash _ ps, d => by simp only [Expr.marked, Expr.bare, Expr.barePairs_markedPairs ps]
  | .unary _ _ x, d => by simp only [Expr.marked, Expr.bare, x.bare_marked]
  | .binary _ _ l r, d => by simp only [Expr.marked, Expr.bare, l.bare_marked, r.bare_marked]
  | .conditional _ c b none, d => by
    simp only [Expr.marked, Expr.bare, c.bare_marked, b.bare_marked]
  | .conditional _ c b (some a), d => by
    simp only [Expr.marked, Expr.bare, c.bare_marked, b.bare_marked, a.bare_marked]
  | .function _ _ b, d => by simp only [Expr.marked, Expr.bare, b.bare_marked]
  | .call _ f xs, d => by
    simp only [Expr.marked, Expr.bare, f.bare_marked, Expr.bareAll_markedAll xs]
  | .index _ x k, d => by simp only [Expr.marked, Expr.bare, x.bare_marked, k.bare_marked]
termination_by structural x => x

theorem Expr.bareAll_markedAll : ∀ (xs : List Expr) (d : Nat),
    Expr.bareAll (Expr.markedAll mark d xs) = Expr.bareAll xs
  | [], _ => rfl
  | x :: xs, d => by
    simp only [Expr.markedAll, Expr.bareAll, x.bare_marked, Expr.bareAll_markedAll xs]
termination_by structural xs => xs

theorem Expr.barePairs_markedPairs : ∀ (ps : List (Expr × Expr)) (d : Nat),
    Expr.barePairs (Expr.markedPairs mark d ps) = Expr.barePairs ps
  | [], _ => rfl
  | (k, x) :: ps, d => by
    simp only [Expr.markedPairs, Expr.barePairs, k.bare_marked, x.bare_marked,
      Expr.barePairs_markedPairs ps]
termination_by structural ps => ps

theorem Stmt.bare_marked : ∀ (s : Stmt) (d : Nat), (s.marked mark d).bare = s.bare
  | .bind _ _ x, d => by simp only [Stmt.marked, Stmt.bare, x.bare_marked]
  | .ret _ none, _ => rfl
  | .ret _ (some x), d => by simp only [Stmt.marked, Stmt.bare, x.bare_marked]
  | .expr _ x, d => by simp only [Stmt.marked, Stmt.bare, x.bare_marked]
termination_by structural s => s

theorem Stmt.bareAll_markedAll : ∀ (ss : List Stmt) (d : Nat),
    Stmt.bareAll (Stmt.markedAll mark d ss) = Stmt.bareAll ss
  | [], _ => rfl
  | s :: ss, d => by
    simp only [Stmt.markedAll, Stmt.bareAll, s.bare_marked, Stmt.bareAll_markedAll ss]
termination_by structural ss => ss

theorem Block.bare_marked : ∀ (b : Block) (d : Nat), (b.marked mark d).bare = b.bare
  | .mk _ ss, d => by simp only [Block.marked, Block.bare, Stmt.bareAll_markedAll ss]
termination_by structural b => b

end

theorem Block.render_marked (b : Block) (d : Nat) : (b.marked mark d).render = b.render := by
  rw [← (b.marked mark d).render_bare, b.bare_marked, b.render_bare]

/-- Marks change nothing but tokens. -/
theorem Program.bare_marked (p : Program) : (p.marked mark).bare = p.bare :=
  congrArg Program.mk (Stmt.bareAll_markedAll p.statements 0)

end Bare

/-- The mark that leaves every location as it is. -/
def keepMark : Nat → Location → Location := fun _ l => l

mutual

theorem Expr.marked_keepMark : ∀ (x : Expr) (d : Nat), x.marked keepMark d = x
  | .ident _, _ | .boolean _ _, _ | .integer _ _, _ | .float _ _, _ | .string _ _, _ => rfl
  | .array t xs, d => congrArg (Expr.array t) (Expr.markedAll_keepMark xs d)
  | .hash t ps, d => congrArg (Expr.hash t) (Expr.markedPairs_keepMark ps d)
  | .unary t op x, d => congrArg (Expr.unary t op) (x.marked_keepMark d)
  | .binary t op l r, d =>
    congrArg₂ (Expr.binary t op) (l.marked_keepMark d) (r.marked_keepMark d)
  | .conditional t c b none, d =>
    congrArg₂ (Expr.conditional t · · none) (c.marked_keepMark d) (b.marked_keepMark (d + 1))
  | .conditional t c b (some a), d => by
    rw [Expr.marked, c.marked_keepMark, b.marked_keepMark, a.marked_keepMark]
    rfl
  | .function t ps b, d => congrArg (Expr.function t ps) (b.marked_keepMark (d + 1))
  | .call t f xs, d =>
    congrArg₂ (Expr.call t) (f.marked_keepMark d) (Expr.markedAll_keepMark xs d)
  | .index t x k, d => congrArg₂ (Expr.index t) (x.marked_keepMark d) (k.marked_keepMark d)
termination_by structural x => x

theorem Expr.markedAll_keepMark : ∀ (xs : List Expr) (d : Nat),
    Expr.markedAll keepMark d xs = xs
  | [], _ => rfl
  | x :: xs, d => congrArg₂ List.cons (x.marked_keepMark d) (Expr.markedAll_keepMark xs d)
termination_by structural xs => xs

theorem Expr.markedPairs_keepMark : ∀ (ps : List (Expr × Expr)) (d : Nat),
    Expr.markedPairs keepMark d ps = ps
  | [], _ => rfl
  | (k, x) :: ps, d => by
    rw [Expr.markedPairs, k.marked_keepMark, x.marked_keepMark, Expr.markedPairs_keepMark ps]
termination_by structural ps => ps

theorem Stmt.marked_keepMark : ∀ (s : Stmt) (d : Nat), s.marked keepMark d = s
  | .bind t name x, d => congrArg (Stmt.bind t name) (x.marked_keepMark d)
  | .ret _ none, _ => rfl
  | .ret t (some x), d => congrArg (Stmt.ret t <| some ·) (x.marked_keepMark d)
  | .expr t x, d => congrArg (Stmt.expr t) (x.marked_keepMark d)
termination_by structural s => s

theorem Stmt.markedAll_keepMark : ∀ (ss : List Stmt) (d : Nat),
    Stmt.markedAll keepMark d ss = ss
  | [], _ => rfl
  | s :: ss, d => congrArg₂ List.cons (s.marked_keepMark d) (Stmt.markedAll_keepMark ss d)
termination_by structural ss => ss

theorem Block.marked_keepMark : ∀ (b : Block) (d : Nat), b.marked keepMark d = b
  | .mk t ss, d => congrArg (Block.mk t) (Stmt.markedAll_keepMark ss d)
termination_by structural b => b

end

/-! ## Names and nesting -/

mutual

/-- The names that an expression looks up, wherever it does so. A name that is only bound does
not count. -/
def Expr.reads : Expr → List String
  | .ident id => [id.name]
  | .boolean _ _ | .integer _ _ | .float _ _ | .string _ _ => []
  | .array _ xs => Expr.readsAll xs
  | .hash _ ps => Expr.readsPairs ps
  | .unary _ _ x => x.reads
  | .binary _ _ l r => l.reads ++ r.reads
  | .conditional _ c b none => c.reads ++ b.reads
  | .conditional _ c b (some a) => c.reads ++ (b.reads ++ a.reads)
  | .function _ _ b => b.reads
  | .call _ f xs => f.reads ++ Expr.readsAll xs
  | .index _ x k => x.reads ++ k.reads
termination_by structural x => x

def Expr.readsAll : List Expr → List String
  | [] => []
  | x :: xs => x.reads ++ Expr.readsAll xs
termination_by structural xs => xs

def Expr.readsPairs : List (Expr × Expr) → List String
  | [] => []
  | (k, x) :: ps => k.reads ++ (x.reads ++ Expr.readsPairs ps)
termination_by structural ps => ps

def Stmt.reads : Stmt → List String
  | .bind _ _ x => x.reads
  | .ret _ none => []
  | .ret _ (some x) => x.reads
  | .expr _ x => x.reads
termination_by structural s => s

def Stmt.readsAll : List Stmt → List String
  | [] => []
  | s :: ss => s.reads ++ Stmt.readsAll ss
termination_by structural ss => ss

def Block.reads : Block → List String
  | .mk _ ss => Stmt.readsAll ss
termination_by structural b => b

end

/-- The names that a program looks up. -/
def Program.reads (p : Program) : List String := Stmt.readsAll p.statements

mutual

/-- How many bodies and branches of an expression there are inside each other at most. -/
def Expr.nesting : Expr → Nat
  | .ident _ | .boolean _ _ | .integer _ _ | .float _ _ | .string _ _ => 0
  | .array _ xs => Expr.nestingAll xs
  | .hash _ ps => Expr.nestingPairs ps
  | .unary _ _ x => x.nesting
  | .binary _ _ l r => max l.nesting r.nesting
  | .conditional _ c b none => max c.nesting (b.nesting + 1)
  | .conditional _ c b (some a) => max c.nesting (max b.nesting a.nesting + 1)
  | .function _ _ b => b.nesting + 1
  | .call _ f xs => max f.nesting (Expr.nestingAll xs)
  | .index _ x k => max x.nesting k.nesting
termination_by structural x => x

def Expr.nestingAll : List Expr → Nat
  | [] => 0
  | x :: xs => max x.nesting (Expr.nestingAll xs)
termination_by structural xs => xs

def Expr.nestingPairs : List (Expr × Expr) → Nat
  | [] => 0
  | (k, x) :: ps => max k.nesting (max x.nesting (Expr.nestingPairs ps))
termination_by structural ps => ps

def Stmt.nesting : Stmt → Nat
  | .bind _ _ x => x.nesting
  | .ret _ none => 0
  | .ret _ (some x) => x.nesting
  | .expr _ x => x.nesting
termination_by structural s => s

def Stmt.nestingAll : List Stmt → Nat
  | [] => 0
  | s :: ss => max s.nesting (Stmt.nestingAll ss)
termination_by structural ss => ss

/-- How many there are inside a block, which does not count itself. -/
def Block.nesting : Block → Nat
  | .mk _ ss => Stmt.nestingAll ss
termination_by structural b => b

end

/-- How many bodies and branches of a program there are inside each other at most. -/
def Program.nesting (p : Program) : Nat := Stmt.nestingAll p.statements

/-! ## Allowances -/

/-- How two programs may differ, and what both have to keep to. -/
structure Allowance where
  /-- One has these marks on its nodes. -/
  mark : Nat → Location → Location
  /-- Only such names are looked up. -/
  seen : String → Prop
  /-- Only so many bodies and branches are around a node. -/
  fits : Nat → Prop

variable (A : Allowance)

mutual

/-- An expression inside of so many bodies and branches keeps to an allowance. -/
def Expr.Obeys : Nat → Expr → Prop
  | d, .ident id => A.fits d ∧ A.seen id.name
  | d, .boolean _ _ | d, .integer _ _ | d, .float _ _ | d, .string _ _ => A.fits d
  | d, .array _ xs => Expr.ObeyAll d xs
  | d, .hash _ ps => Expr.ObeyPairs d ps
  | d, .unary _ _ x => x.Obeys d
  | d, .binary _ _ l r => l.Obeys d ∧ r.Obeys d
  | d, .conditional _ c b none => c.Obeys d ∧ b.Obeys (d + 1)
  | d, .conditional _ c b (some a) => c.Obeys d ∧ b.Obeys (d + 1) ∧ a.Obeys (d + 1)
  | d, .function _ _ b => A.fits d ∧ b.Obeys (d + 1)
  | d, .call _ f xs => f.Obeys d ∧ Expr.ObeyAll d xs
  | d, .index _ x k => x.Obeys d ∧ k.Obeys d
termination_by structural _ x => x

def Expr.ObeyAll : Nat → List Expr → Prop
  | d, [] => A.fits d
  | d, x :: xs => x.Obeys d ∧ Expr.ObeyAll d xs
termination_by structural _ xs => xs

def Expr.ObeyPairs : Nat → List (Expr × Expr) → Prop
  | d, [] => A.fits d
  | d, (k, x) :: ps => k.Obeys d ∧ x.Obeys d ∧ Expr.ObeyPairs d ps
termination_by structural _ ps => ps

def Stmt.Obeys : Nat → Stmt → Prop
  | d, .bind _ _ x => x.Obeys d
  | d, .ret _ none => A.fits d
  | d, .ret _ (some x) => x.Obeys d
  | d, .expr _ x => x.Obeys d
termination_by structural _ s => s

def Stmt.ObeyAll : Nat → List Stmt → Prop
  | d, [] => A.fits d
  | d, s :: ss => s.Obeys d ∧ Stmt.ObeyAll d ss
termination_by structural _ ss => ss

/-- A body or a branch keeps to an allowance. It counts itself. -/
def Block.Obeys : Nat → Block → Prop
  | d, .mk _ ss => Stmt.ObeyAll d ss
termination_by structural _ b => b

end

variable {A}

theorem Block.Obeys.statements {b : Block} {d : Nat} (h : b.Obeys A d) :
    Stmt.ObeyAll A d b.statements := by
  cases b
  exact h

/-! Where a tree keeps to an allowance there may be as many bodies and branches around it as
there are. -/

mutual

theorem Expr.Obeys.fits : ∀ {x : Expr} {d : Nat}, x.Obeys A d → A.fits d
  | .ident _, _, h | .function _ _ _, _, h => h.1
  | .boolean _ _, _, h | .integer _ _, _, h | .float _ _, _, h | .string _ _, _, h => h
  | .array _ xs, _, h => Expr.ObeyAll.fits (l := xs) h
  | .hash _ ps, _, h => Expr.ObeyPairs.fits (l := ps) h
  | .unary _ _ x, _, h => Expr.Obeys.fits (x := x) h
  | .binary _ _ l _, _, h => Expr.Obeys.fits (x := l) h.1
  | .conditional _ c _ none, _, h | .conditional _ c _ (some _), _, h =>
    Expr.Obeys.fits (x := c) h.1
  | .call _ f _, _, h => Expr.Obeys.fits (x := f) h.1
  | .index _ x _, _, h => Expr.Obeys.fits (x := x) h.1
termination_by structural x => x

theorem Expr.ObeyAll.fits : ∀ {l : List Expr} {d : Nat}, Expr.ObeyAll A d l → A.fits d
  | [], _, h => h
  | _ :: xs, _, h => Expr.ObeyAll.fits (l := xs) h.2
termination_by structural l => l

theorem Expr.ObeyPairs.fits : ∀ {l : List (Expr × Expr)} {d : Nat},
    Expr.ObeyPairs A d l → A.fits d
  | [], _, h => h
  | (_, _) :: ps, _, h => Expr.ObeyPairs.fits (l := ps) h.2.2
termination_by structural l => l

end

theorem Stmt.Obeys.fits {s : Stmt} {d : Nat} (h : s.Obeys A d) : A.fits d := by
  cases s with
  | bind t name x => exact Expr.Obeys.fits (x := x) h
  | ret t x =>
    cases x with
    | none => exact h
    | some x => exact Expr.Obeys.fits (x := x) h
  | expr t x => exact Expr.Obeys.fits (x := x) h

theorem Stmt.ObeyAll.fits {ss : List Stmt} {d : Nat} (h : Stmt.ObeyAll A d ss) : A.fits d := by
  induction ss with
  | nil => exact h
  | cons s ss ih => exact ih h.2

section Obeys

variable {deepest : Nat}

mutual

/-- A tree keeps to an allowance if the names that it looks up may be, and if it does not nest
deeper than allowed. -/
theorem Expr.obeys (hfits : ∀ d ≤ deepest, A.fits d) : ∀ (x : Expr) (d : Nat),
    (∀ name ∈ x.reads, A.seen name) → d + x.nesting ≤ deepest → x.Obeys A d
  | .ident id, d, hreads, hdeep => ⟨hfits d hdeep, hreads _ (List.mem_singleton.mpr rfl)⟩
  | .boolean _ _, d, _, hdeep | .integer _ _, d, _, hdeep | .float _ _, d, _, hdeep
  | .string _ _, d, _, hdeep => hfits d hdeep
  | .array _ xs, d, hreads, hdeep => Expr.obeyAll hfits xs d hreads hdeep
  | .hash _ ps, d, hreads, hdeep => Expr.obeyPairs hfits ps d hreads hdeep
  | .unary _ _ x, d, hreads, hdeep => x.obeys hfits d hreads hdeep
  | .binary _ _ l r, d, hreads, hdeep => by
    rw [Expr.reads, List.forall_mem_append] at hreads
    rw [Expr.nesting] at hdeep
    exact ⟨l.obeys hfits d hreads.1 (by omega), r.obeys hfits d hreads.2 (by omega)⟩
  | .conditional _ c b none, d, hreads, hdeep => by
    rw [Expr.reads, List.forall_mem_append] at hreads
    rw [Expr.nesting] at hdeep
    exact ⟨c.obeys hfits d hreads.1 (by omega), b.obeys hfits (d + 1) hreads.2 (by omega)⟩
  | .conditional _ c b (some a), d, hreads, hdeep => by
    rw [Expr.reads, List.forall_mem_append, List.forall_mem_append] at hreads
    rw [Expr.nesting] at hdeep
    exact ⟨c.obeys hfits d hreads.1 (by omega), b.obeys hfits (d + 1) hreads.2.1 (by omega),
      a.obeys hfits (d + 1) hreads.2.2 (by omega)⟩
  | .function _ _ b, d, hreads, hdeep => by
    rw [Expr.nesting] at hdeep
    exact ⟨hfits d (by omega), b.obeys hfits (d + 1) hreads (by omega)⟩
  | .call _ f xs, d, hreads, hdeep => by
    rw [Expr.reads, List.forall_mem_append] at hreads
    rw [Expr.nesting] at hdeep
    exact ⟨f.obeys hfits d hreads.1 (by omega), Expr.obeyAll hfits xs d hreads.2 (by omega)⟩
  | .index _ x k, d, hreads, hdeep => by
    rw [Expr.reads, List.forall_mem_append] at hreads
    rw [Expr.nesting] at hdeep
    exact ⟨x.obeys hfits d hreads.1 (by omega), k.obeys hfits d hreads.2 (by omega)⟩
termination_by structural x => x

theorem Expr.obeyAll (hfits : ∀ d ≤ deepest, A.fits d) : ∀ (xs : List Expr) (d : Nat),
    (∀ name ∈ Expr.readsAll xs, A.seen name) → d + Expr.nestingAll xs ≤ deepest →
      Expr.ObeyAll A d xs
  | [], d, _, hdeep => hfits d hdeep
  | x :: xs, d, hreads, hdeep => by
    rw [Expr.readsAll, List.forall_mem_append] at hreads
    rw [Expr.nestingAll] at hdeep
    exact ⟨x.obeys hfits d hreads.1 (by omega), Expr.obeyAll hfits xs d hreads.2 (by omega)⟩
termination_by structural xs => xs

theorem Expr.obeyPairs (hfits : ∀ d ≤ deepest, A.fits d) : ∀ (ps : List (Expr × Expr)) (d : Nat),
    (∀ name ∈ Expr.readsPairs ps, A.seen name) → d + Expr.nestingPairs ps ≤ deepest →
      Expr.ObeyPairs A d ps
  | [], d, _, hdeep => hfits d hdeep
  | (k, x) :: ps, d, hreads, hdeep => by
    rw [Expr.readsPairs, List.forall_mem_append, List.forall_mem_append] at hreads
    rw [Expr.nestingPairs] at hdeep
    exact ⟨k.obeys hfits d hreads.1 (by omega), x.obeys hfits d hreads.2.1 (by omega),
      Expr.obeyPairs hfits ps d hreads.2.2 (by omega)⟩
termination_by structural ps => ps

theorem Stmt.obeys (hfits : ∀ d ≤ deepest, A.fits d) : ∀ (s : Stmt) (d : Nat),
    (∀ name ∈ s.reads, A.seen name) → d + s.nesting ≤ deepest → s.Obeys A d
  | .bind _ _ x, d, hreads, hdeep | .ret _ (some x), d, hreads, hdeep
  | .expr _ x, d, hreads, hdeep => x.obeys hfits d hreads hdeep
  | .ret _ none, d, _, hdeep => hfits d hdeep
termination_by structural s => s

theorem Stmt.obeyAll (hfits : ∀ d ≤ deepest, A.fits d) : ∀ (ss : List Stmt) (d : Nat),
    (∀ name ∈ Stmt.readsAll ss, A.seen name) → d + Stmt.nestingAll ss ≤ deepest →
      Stmt.ObeyAll A d ss
  | [], d, _, hdeep => hfits d hdeep
  | s :: ss, d, hreads, hdeep => by
    rw [Stmt.readsAll, List.forall_mem_append] at hreads
    rw [Stmt.nestingAll] at hdeep
    exact ⟨s.obeys hfits d hreads.1 (by omega), Stmt.obeyAll hfits ss d hreads.2 (by omega)⟩
termination_by structural ss => ss

theorem Block.obeys (hfits : ∀ d ≤ deepest, A.fits d) : ∀ (b : Block) (d : Nat),
    (∀ name ∈ b.reads, A.seen name) → d + b.nesting ≤ deepest → b.Obeys A d
  | .mk _ ss, d, hreads, hdeep => Stmt.obeyAll hfits ss d hreads hdeep
termination_by structural b => b

end

end Obeys

end Monkey
