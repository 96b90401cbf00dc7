import Monkey.Proofs.Evaluation.Counter
import Monkey.Proofs.Evaluation.Renaming
import Monkey.Run.Batch

/-!
# Runs that share an evaluator

Sources may be run one after the other by the same evaluator. What the runs then share
is the counter of open calls, which each run finds as the one before has left it, and the
numbers of frames and functions, which go on where the one before stopped (`Shared`). Each
run has an outermost scope of its own (`Runs`).

A run that starts with the counter at zero leaves it at zero, be the source unreadable,
refused, wrong or too deeply nested (`Runs.idle`). So each run of a series is as if the
source had been run alone: it fails in the same way or has the same value up to a
renaming, and shows the same text (`series_independent`).
-/

namespace Monkey

open Stepwise

/-- What outlives a run: the counter of open calls, and a machine with all frames and functions
that there have been. -/
structure Shared where
  depth : Nat
  machine : Machine

namespace Shared

/-- Before the first run. -/
def new : Shared := ⟨0, Machine.new⟩

/-- Between two runs: no call is open, and what was printed has been taken away. -/
structure Idle (s : Shared) : Prop where
  depth : s.depth = 0
  printed : s.machine.printed = ""

theorem idle_new : new.Idle := ⟨rfl, rfl⟩

/-- The start of a program in a new outermost scope. -/
def begin (s : Shared) (p : Program) : Phase :=
  (Node.program p).begin s.machine.root.1 s.depth s.machine.root.2

end Shared

/-- The run of a source, from what earlier runs have left to what this one leaves. -/
inductive Runs (e : Evaluator) : Shared → ByteArray → BatchRun → Shared → Prop
  | unreadable {s : Shared} {bytes : ByteArray} (hbytes : Utf8.decode? bytes = none) :
    Runs e s bytes (.failed (.unreadable .notText)) s
  | malformed {s : Shared} {bytes : ByteArray} {source : String}
      (hbytes : Utf8.decode? bytes = some source)
      (hparse : (parse source).diagnostics.isEmpty = false) :
    Runs e s bytes (.failed (.malformed (parse source).diagnostics)) s
  | ran {s : Shared} {bytes : ByteArray} {source : String} {outcome : Outcome} {depth : Nat}
      {m : Machine} (hbytes : Utf8.decode? bytes = some source)
      (hparse : (parse source).diagnostics.isEmpty = true)
      (hends : EndsIn e (s.begin (parse source).program) outcome depth m) :
    Runs e s bytes ⟨BatchRun.judge (.ran outcome), m.printed⟩ ⟨depth, m.drain.2⟩

/-- Runs of sources one after the other, each with what it leaves. -/
inductive Series (e : Evaluator) : Shared → List ByteArray → List (BatchRun × Shared) → Prop
  | nil {s : Shared} : Series e s [] []
  | cons {s t : Shared} {bytes : ByteArray} {sources : List ByteArray} {run : BatchRun}
      {runs : List (BatchRun × Shared)} (hrun : Runs e s bytes run t)
      (hrest : Series e t sources runs) : Series e s (bytes :: sources) ((run, t) :: runs)

variable {e : Evaluator} {s t : Shared} {bytes : ByteArray} {run run' : BatchRun}

/-! ## One run -/

/-- A program that is started with the counter at zero ends as the evaluator says, with the
counter at zero. -/
theorem Shared.Idle.endsIn (hs : s.Idle) (e : Evaluator) (p : Program) :
    EndsIn e (s.begin p) (e.runProgram p s.machine.root.1 s.machine.root.2).1 0
      (e.runProgram p s.machine.root.1 s.machine.root.2).2 := by
  unfold Shared.begin
  rw [hs.depth]
  exact endsIn_runProgram e p _ _

theorem Runs.idle (h : Runs e s bytes run t) (hs : s.Idle) : t.Idle := by
  cases h with
  | unreadable hbytes => exact hs
  | malformed hbytes hparse => exact hs
  | ran hbytes hparse hends =>
    obtain ⟨-, rfl, -⟩ := (hs.endsIn e _).unique hends
    exact ⟨rfl, rfl⟩

theorem Shared.Idle.exists_runs (hs : s.Idle) (e : Evaluator) (bytes : ByteArray) :
    ∃ run t, Runs e s bytes run t := by
  cases hbytes : Utf8.decode? bytes with
  | none => exact ⟨_, _, .unreadable hbytes⟩
  | some source =>
    cases hparse : (parse source).diagnostics.isEmpty with
    | false => exact ⟨_, _, .malformed hbytes hparse⟩
    | true => exact ⟨_, _, .ran hbytes hparse (hs.endsIn e _)⟩

/-! ## Two runs of a source -/

/-- The same failure, or values that are the same up to a renaming. -/
inductive BatchRun.ResultLike (w : Renaming) : Except Failure Value → Except Failure Value → Prop
  | ok {u v : Value} (h : Value.Like w.Closures u v) : ResultLike w (.ok u) (.ok v)
  | error (f : Failure) : ResultLike w (.error f) (.error f)

/-- Two runs, each with what it leaves, show the same text, and their results are the same up to
a renaming of all that is on the machines. -/
structure BatchRun.Agree (p q : BatchRun × Shared) : Prop where
  printed : q.1.printed = p.1.printed
  shown : ∀ stamp, q.1.transcript stamp = p.1.transcript stamp
  result : ∃ w : Renaming, w.Machines p.2.machine q.2.machine ∧ ResultLike w p.1.result q.1.result

namespace BatchRun

variable {w : Renaming}

theorem resultLike_judge {o o' : Outcome} (h : Outcome.Like w.Closures o o') :
    ResultLike w (judge (.ran o)) (judge (.ran o')) := by
  cases h with
  | depthExceeded limit => exact .error _
  | value hv =>
    cases hv with
    | error message => exact .error _
    | integer n => exact .ok (.integer n)
    | float x => exact .ok (.float x)
    | boolean b => exact .ok (.boolean b)
    | string s => exact .ok (.string s)
    | null => exact .ok .null
    | returned h => exact .ok (.returned h)
    | function h => exact .ok (.function h)
    | native f => exact .ok (.native f)
    | array h => exact .ok (.array h)
    | hash h => exact .ok (.hash h)

/-- What a run shows is told by what it printed and how it failed. -/
theorem agree_of_resultLike (hprinted : run'.printed = run.printed)
    (hm : w.Machines s.machine t.machine) (h : ResultLike w run.result run'.result) :
    Agree (run, s) (run', t) where
  printed := hprinted
  result := ⟨w, hm, h⟩
  shown stamp := by
    unfold transcript
    dsimp only
    rw [hprinted]
    generalize run.result = r, run'.result = r' at h ⊢
    cases h with
    | ok h => rfl
    | error f => rfl

theorem agree_failed (hs : s.Idle) (ht : t.Idle) (f : Failure) :
    Agree (failed f, s) (failed f, t) :=
  agree_of_resultLike rfl (.nowhere (ht.printed.trans hs.printed.symm)) (.error f)

end BatchRun

/-- Programs with the standard library that are started between runs agree. -/
theorem Shared.Idle.agree (hs : s.Idle) (ht : t.Idle) {maxDepth : Nat} {p : Program}
    {outcome outcome' : Outcome} {depth depth' : Nat} {m m' : Machine}
    (hends : EndsIn (.standard maxDepth) (s.begin p) outcome depth m)
    (hends' : EndsIn (.standard maxDepth) (t.begin p) outcome' depth' m') :
    BatchRun.Agree (⟨BatchRun.judge (.ran outcome), m.printed⟩, ⟨depth, m.drain.2⟩)
      (⟨BatchRun.judge (.ran outcome'), m'.printed⟩, ⟨depth', m'.drain.2⟩) := by
  obtain ⟨rfl, -, rfl⟩ := (hs.endsIn _ p).unique hends
  obtain ⟨rfl, -, rfl⟩ := (ht.endsIn _ p).unique hends'
  -- Nothing that earlier runs have left is taken for anything, only the two new scopes are.
  have hstart : Renaming.nowhere.Machines s.machine t.machine :=
    .nowhere (ht.printed.trans hs.printed.symm)
  obtain ⟨w, -, hm, hscope⟩ := hstart.root
  obtain ⟨w', -, houtcome, hlast⟩ := hm.runProgram hscope maxDepth p
  exact BatchRun.agree_of_resultLike hlast.printed hlast.drain (BatchRun.resultLike_judge houtcome)

/-- A run leaves the counter at zero and agrees with the run of the source alone. -/
def AsIfAlone (e : Evaluator) (bytes : ByteArray) (p : BatchRun × Shared) : Prop :=
  p.2.depth = 0 ∧ ∃ t, Runs e .new bytes (e.runBytes bytes) t ∧
    BatchRun.Agree p (e.runBytes bytes, t)

theorem Runs.asIfAlone {maxDepth : Nat} (h : Runs (.standard maxDepth) s bytes run t)
    (hs : s.Idle) :
    AsIfAlone (.standard maxDepth) bytes (run, t) := by
  refine ⟨(h.idle hs).depth, ?_⟩
  unfold Evaluator.runBytes
  cases h with
  | unreadable hbytes =>
    rw [hbytes]
    exact ⟨_, .unreadable hbytes, BatchRun.agree_failed hs Shared.idle_new _⟩
  | malformed hbytes hparse =>
    rw [hbytes]
    dsimp only [Evaluator.runText, Evaluator.runSource]
    rw [hparse]
    exact ⟨_, .malformed hbytes hparse, BatchRun.agree_failed hs Shared.idle_new _⟩
  | ran hbytes hparse hends =>
    rw [hbytes]
    dsimp only [Evaluator.runText, Evaluator.runSource]
    rw [hparse]
    have hnew := Shared.idle_new.endsIn (.standard maxDepth)
    exact ⟨_, .ran hbytes hparse (hnew _), hs.agree Shared.idle_new hends (hnew _)⟩

/-! ## Series -/

theorem Shared.Idle.exists_series (e : Evaluator) (sources : List ByteArray) :
    ∀ {s : Shared}, s.Idle → ∃ runs, Series e s sources runs := by
  induction sources with
  | nil => exact fun _ => ⟨[], .nil⟩
  | cons bytes sources ih =>
    intro s hs
    obtain ⟨run, t, hrun⟩ := hs.exists_runs e bytes
    obtain ⟨runs, hrest⟩ := ih (hrun.idle hs)
    exact ⟨_, .cons hrun hrest⟩

theorem Series.asIfAlone {maxDepth : Nat} {sources : List ByteArray}
    {runs : List (BatchRun × Shared)} (h : Series (.standard maxDepth) s sources runs)
    (hs : s.Idle) : List.Forall₂ (AsIfAlone (.standard maxDepth)) sources runs := by
  induction h with
  | nil => exact .nil
  | cons hrun hrest ih => exact .cons (hrun.asIfAlone hs) (ih (hrun.idle hs))

/-- Sources can be run one after the other by an evaluator with the standard library, and each run
is as if the source had been run alone. For no evaluation, however it ends, leaves the counter of
open calls at another value than it found, or lets it get above the limit. -/
theorem series_independent (maxDepth : Nat) (sources : List ByteArray) :
    (∃ runs, Series (.standard maxDepth) .new sources runs) ∧
      (∀ runs, Series (.standard maxDepth) .new sources runs →
        List.Forall₂ (AsIfAlone (.standard maxDepth)) sources runs) ∧
      ∀ (node : Node) (scope : Scope) (m : Machine) (depth : Nat), depth ≤ maxDepth →
        (∀ n, ((tick (.standard maxDepth))^[n] (node.begin scope depth m)).depth ≤ maxDepth) ∧
          ∃ outcome m',
            EndsIn (.standard maxDepth) (node.begin scope depth m) outcome depth m' := by
  refine ⟨Shared.idle_new.exists_series _ sources, fun runs h => h.asIfAlone Shared.idle_new, ?_⟩
  intro node scope m depth hdepth
  have hcounted := node.counted_begin (e := .standard maxDepth) scope m hdepth
  exact ⟨fun n => (counted_ticks hcounted n).depth_le, exists_endsIn node scope m hdepth⟩

/-- A function that calls itself without end leaves the next source all its calls. -/
theorem series_independent_recursion :
    (∃ runs, Series (.standard 1) .new
        ["let f = fn() { f() }; f()".toUTF8, "fn() { 2 }()".toUTF8] runs ∧
      List.Forall₂ (AsIfAlone (.standard 1))
        ["let f = fn() { f() }; f()".toUTF8, "fn() { 2 }()".toUTF8] runs) ∧
      ∃ outcome m', EndsIn (.standard 1)
        ((Node.expr (.boolean default true)).begin ⟨0, []⟩ 1 .new) outcome 1 m' := by
  obtain ⟨⟨runs, hruns⟩, halone, hcounter⟩ := series_independent 1
    ["let f = fn() { f() }; f()".toUTF8, "fn() { 2 }()".toUTF8]
  exact ⟨⟨runs, hruns, halone runs hruns⟩, (hcounter _ _ _ 1 le_rfl).2⟩

end Monkey
