import Monkey.Proofs.Evaluation.Renaming
import Monkey.Proofs.Evaluation.Termination
import Monkey.Run.Session

/-!
# Lines that leave no trace

A line that is refused, or that has no `let` at its top level, defines nothing in the scope
of the session, however its run ends (`Session.definesNothing`). What it leaves behind
are frames and functions that no later line can get hold of. So the session goes on as if
the line had not been there: the others appear on the screen in the same way, and at the
end the same names are bound, to the same values up to a renaming
(`Session.runLines_eraseIdx`).

Two sessions are compared line by line (`Session.Alike`). A line that both run keeps them
alike (`Session.Alike.step`), and so does a line that defines nothing and that only one of
them runs (`Session.Alike.skip`). A session does not keep the counter of open calls, since
every line leaves it at zero (`Stepwise.endsIn_runProgram`).
-/

namespace Monkey

/-! ## Programs without a top-level `let` -/

/-- Whether a statement is a `let`. -/
def Stmt.isLet : Stmt → Bool
  | .bind _ _ _ => true
  | _ => false

namespace Evaluator

/-- A step after which another may follow leaves what the first leaves, or what the second does
from there. -/
theorem finish_unlessSignal (e : Evaluator) (x : Eval Value) (k : Value → Eval Value)
    (m : Machine) :
    (e.finish (Eval.unlessSignal x k) m).2 = (e.finish x m).2 ∨
      ∃ v, (e.finish (Eval.unlessSignal x k) m).2 = (e.finish (k v) (e.finish x m).2).2 := by
  unfold finish
  rw [unlessSignal_apply]
  cases x m with
  | ok v m' =>
    dsimp only
    cases v.isSignal with
    | true => exact .inl rfl
    | false => exact .inr ⟨v, rfl⟩
  | error why m' => exact .inl rfl

theorem keptBy_runStmt_of_isLet (maxDepth : Nat) {s : Stmt} (h : s.isLet = false) (scope : Scope)
    (m : Machine) : m.KeptBy ((standard maxDepth).runStmt s scope m).2 := by
  refine keptBy_runStmt maxDepth fun name v hbinds => ?_
  obtain ⟨token, id, x, rfl, -⟩ := hbinds
  cases h

theorem keptBy_evalAll (maxDepth : Nat) {ss : List Stmt} (h : ∀ s ∈ ss, s.isLet = false)
    (scope : Scope) : ∀ (v : Value) (m : Machine), m.KeptBy ((standard maxDepth).finish
      (Stmt.evalAll (standard maxDepth).library (standard maxDepth).apply ss v scope) m).2 := by
  induction ss with
  | nil => exact fun _ m => .refl m
  | cons s ss ih =>
    intro v m
    have hfirst := keptBy_runStmt_of_isLet maxDepth (h s List.mem_cons_self) scope m
    rw [Stmt.evalAll]
    rcases finish_unlessSignal (standard maxDepth) (s.eval _ _ scope) _ m with
      heq | ⟨u, heq⟩
    · rw [heq]
      exact hfirst
    · rw [heq]
      exact hfirst.trans (ih (fun s' hs' => h s' (List.mem_cons_of_mem s hs')) u _)

/-- A program without a `let` at its top level writes to no frame that is there. -/
theorem keptBy_runProgram (maxDepth : Nat) {p : Program}
    (h : ∀ s ∈ p.statements, s.isLet = false) (scope : Scope) (m : Machine) :
    m.KeptBy ((standard maxDepth).runProgram p scope m).2 := by
  have hkept := keptBy_evalAll maxDepth h scope .null m
  rw [Stepwise.runProgram_eq]
  unfold finish at hkept
  generalize Stmt.evalAll (standard maxDepth).library (standard maxDepth).apply p.statements .null
    scope m = r at hkept ⊢
  cases r with
  | ok v m' => exact hkept
  | error why m' => exact hkept

end Evaluator

/-- What is taken for something is still there on a machine that keeps it. -/
theorem Renaming.Machines.of_keptBy {w : Renaming} {m m' n : Machine} (hm : w.Machines m n)
    (hkept : m.KeptBy m') (hprinted : n.printed = m'.printed) : w.Machines m' n where
  frames i j hij := (hm.frames i j hij).imp_left fun hi => hi.trans_le hkept.size
  numbers i j hij := (hm.numbers i j hij).imp_left fun hi => hi.trans_le hkept.closures
  bindings i j hij := by
    rw [hkept.bindings i (hm.frames i j hij).1]
    exact hm.bindings i j hij
  printed := hprinted

namespace Session

/-- Whether a line is refused, or has no `let` at its top level. -/
def definesNothing (line : String) : Bool :=
  let parsed := parse line
  !parsed.diagnostics.isEmpty || parsed.program.statements.all fun s => !s.isLet

/-- What appears on the screen for each line, with the prompt before it. -/
def screens (stamp : String) : Session → List String → List Transcript
  | _, [] => []
  | s, line :: lines =>
    (.written prompt :: (s.step line).1.transcript stamp) :: (s.step line).2.screens stamp lines

/-- The session after some lines. -/
def after : Session → List String → Session
  | s, [] => s
  | s, line :: lines => (s.step line).2.after lines

/-- What appears on the screen when the input ends. -/
def closing (stamp : String) : Transcript :=
  [.written prompt, .written (stamped stamp farewell)]

theorem scope_after (s : Session) (lines : List String) : (s.after lines).scope = s.scope := by
  induction lines generalizing s with
  | nil => rfl
  | cons line lines ih => exact ih (s.step line).2

theorem runLines_eq (stamp : String) (s : Session) (lines : List String) :
    s.runLines stamp lines = (s.screens stamp lines).flatten ++ closing stamp := by
  induction lines generalizing s with
  | nil => rfl
  | cons line lines ih =>
    rw [screens, List.flatten_cons, List.append_assoc, ← ih]
    rfl

theorem step_of_malformed (s : Session) {line : String}
    (h : (parse line).diagnostics.isEmpty = false) :
    s.step line = (⟨s.machine.printed, .malformed (parse line).diagnostics⟩,
      { s with machine := s.machine.drain.2 }) := by
  unfold step Evaluator.runSource
  dsimp only
  rw [h]
  rfl

theorem step_of_parsed (s : Session) {line : String} {outcome : Outcome} {m : Machine}
    (h : (parse line).diagnostics.isEmpty = true)
    (hrun : s.evaluator.runProgram (parse line).program s.scope s.machine = (outcome, m)) :
    s.step line = (⟨m.printed, .ran outcome⟩, { s with machine := m.drain.2 }) := by
  unfold step Evaluator.runSource
  dsimp only
  rw [h, hrun]
  rfl

/-! ## Two sessions side by side -/

/-- Between lines, two sessions with the standard library whose scopes and machines are the same
up to a renaming. -/
structure Alike (maxDepth : Nat) (w : Renaming) (s t : Session) : Prop where
  left : s.evaluator = .standard maxDepth
  right : t.evaluator = .standard maxDepth
  scopes : w.Scopes s.scope t.scope
  machines : w.Machines s.machine t.machine
  drained : s.machine.printed = ""

theorem exists_alike_start (maxDepth : Nat) :
    ∃ w, Alike maxDepth w (start (.standard maxDepth)) (start (.standard maxDepth)) := by
  have hnew : Renaming.nowhere.Machines Machine.new Machine.new := .nowhere rfl
  obtain ⟨w, -, hm, hs⟩ := hnew.root
  exact ⟨w, rfl, rfl, hs, hm, rfl⟩

/-- Alike values are told in the same way. -/
theorem lines_eq {C : Closure → Closure → Prop} (hC : Closure.Faithful C) {o o' : Outcome}
    (h : Outcome.Like C o o') (stamp printed : String) :
    Step.lines stamp ⟨printed, .ran o'⟩ = Step.lines stamp ⟨printed, .ran o⟩ := by
  cases h with
  | depthExceeded limit => rfl
  | @value u v hv =>
    have hrender := hv.render hC
    cases hv with
    | null => rfl
    | _ => simp only [Step.lines, hrender]

namespace Alike

variable {maxDepth : Nat} {w : Renaming} {s t : Session}

/-- A line that both sessions run appears on both screens in the same way. -/
theorem step (h : Alike maxDepth w s t) (line : String) :
    (∀ stamp, (t.step line).1.transcript stamp = (s.step line).1.transcript stamp) ∧
      ∃ w', Alike maxDepth w' (s.step line).2 (t.step line).2 := by
  cases hparse : (parse line).diagnostics.isEmpty with
  | false =>
    rw [s.step_of_malformed hparse, t.step_of_malformed hparse, h.machines.printed]
    exact ⟨fun _ => rfl, w, h.left, h.right, h.scopes, h.machines.drain, rfl⟩
  | true =>
    have hends := h.machines.runProgram h.scopes maxDepth (parse line).program
    rcases hs : (Evaluator.standard maxDepth).runProgram (parse line).program s.scope s.machine with
      ⟨o, m⟩
    rcases ht : (Evaluator.standard maxDepth).runProgram (parse line).program t.scope t.machine with
      ⟨o', n⟩
    rw [hs, ht] at hends
    obtain ⟨w', hle, houtcome, hm'⟩ := hends
    rw [← h.left] at hs
    rw [← h.right] at ht
    rw [s.step_of_parsed hparse hs, t.step_of_parsed hparse ht]
    refine ⟨fun stamp => ?_, w', h.left, h.right, h.scopes.mono hle, hm'.drain, rfl⟩
    unfold Step.transcript
    rw [hm'.printed, lines_eq w'.faithful houtcome]

/-- A line that defines nothing, and that only one session runs, is not seen by the other. -/
theorem skip (h : Alike maxDepth w s t) {line : String} (hline : definesNothing line = true) :
    Alike maxDepth w (s.step line).2 t := by
  have hdrained : t.machine.printed = "" := h.machines.printed.trans h.drained
  cases hparse : (parse line).diagnostics.isEmpty with
  | false =>
    rw [s.step_of_malformed hparse]
    have hkept := Machine.KeptBy.refl s.machine
    exact ⟨h.left, h.right, h.scopes, h.machines.of_keptBy hkept.drain hdrained, rfl⟩
  | true =>
    have hlet : ∀ s ∈ (parse line).program.statements, s.isLet = false := by
      simpa [definesNothing, hparse] using hline
    have hkept := Evaluator.keptBy_runProgram maxDepth hlet s.scope s.machine
    rcases hs : (Evaluator.standard maxDepth).runProgram (parse line).program s.scope s.machine with
      ⟨o, m⟩
    rw [hs] at hkept
    rw [← h.left] at hs
    rw [s.step_of_parsed hparse hs]
    exact ⟨h.left, h.right, h.scopes, h.machines.of_keptBy hkept.drain hdrained, rfl⟩

theorem run (h : Alike maxDepth w s t) (lines : List String) :
    (∀ stamp, t.screens stamp lines = s.screens stamp lines) ∧
      ∃ w', Alike maxDepth w' (s.after lines) (t.after lines) := by
  induction lines generalizing w s t with
  | nil => exact ⟨fun _ => rfl, w, h⟩
  | cons line lines ih =>
    obtain ⟨hline, w', h'⟩ := h.step line
    obtain ⟨hlines, hlast⟩ := ih h'
    refine ⟨fun stamp => ?_, hlast⟩
    rw [screens, screens, hline, hlines]

/-- One session leaves out a line that defines nothing. -/
theorem eraseIdx (h : Alike maxDepth w s t) {lines : List String} {i : Nat} {line : String}
    (hi : lines[i]? = some line) (hline : definesNothing line = true) :
    (∀ stamp, t.screens stamp (lines.eraseIdx i) = (s.screens stamp lines).eraseIdx i) ∧
      ∃ w', Alike maxDepth w' (s.after lines) (t.after (lines.eraseIdx i)) := by
  induction lines generalizing w s t i with
  | nil => cases hi
  | cons first lines ih =>
    cases i with
    | zero =>
      -- From here on both sessions run the same lines.
      obtain rfl : first = line := Option.some.inj hi
      exact (h.skip hline).run lines
    | succ i =>
      obtain ⟨hfirst, w', h'⟩ := h.step first
      obtain ⟨hlines, hlast⟩ := ih h' hi
      refine ⟨fun stamp => ?_, hlast⟩
      rw [List.eraseIdx_cons_succ, screens, screens, List.eraseIdx_cons_succ, hfirst, hlines]

end Alike

/-- A session in which a line that defines nothing is left out shows for the other lines what the
whole session shows, and ends with the same names bound in its scope, to the same values up to a
renaming. -/
theorem runLines_eraseIdx (maxDepth : Nat) (stamp : String) (lines : List String) (i : Nat)
    {line : String} (hi : lines[i]? = some line) (hline : definesNothing line = true) :
    let s := start (.standard maxDepth)
    s.runLines stamp lines = (s.screens stamp lines).flatten ++ closing stamp ∧
      s.runLines stamp (lines.eraseIdx i) =
        ((s.screens stamp lines).eraseIdx i).flatten ++ closing stamp ∧
      ∃ w : Renaming, w.Machines (s.after lines).machine (s.after (lines.eraseIdx i)).machine ∧
        Bindings.Alike (Value.Like w.Closures)
          ((s.after lines).machine.store.bindings s.scope.frame)
          ((s.after (lines.eraseIdx i)).machine.store.bindings s.scope.frame) := by
  intro s
  obtain ⟨w, hstart⟩ := exists_alike_start maxDepth
  obtain ⟨hscreens, w', hlast⟩ := hstart.eraseIdx hi hline
  refine ⟨runLines_eq stamp s lines, ?_, w', hlast.machines, ?_⟩
  · rw [runLines_eq, hscreens]
  · have hscopes := hlast.scopes
    rw [scope_after, scope_after] at hscopes
    obtain ⟨hroot, -⟩ := List.forall₂_cons.mp hscopes
    exact hlast.machines.bindings _ _ hroot

/-- A call that is one too many leaves no trace. -/
theorem runLines_eraseIdx_call :
    definesNothing "fn() { x }()" = true ∧
      (start (.standard 0)).runLines "0s" ["let x = 1", "x"] =
        (((start (.standard 0)).screens "0s" ["let x = 1", "fn() { x }()", "x"]).eraseIdx
          1).flatten ++ closing "0s" := by
  have hline : definesNothing "fn() { x }()" = true := by decide +kernel
  obtain ⟨-, hrest, -⟩ := runLines_eraseIdx 0 "0s" ["let x = 1", "fn() { x }()", "x"] 1 rfl hline
  exact ⟨hline, hrest⟩

end Session

end Monkey
