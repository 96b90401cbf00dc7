import Monkey.Proofs.Evaluation.Termination

/-!
# The depth limit is a threshold

Two runs of one program that differ in nothing but the limit take the same steps,
until the lower limit is reached (`step_eq_or_halted`). So the limit cannot be seen
by a run that stays under it, and a run that is broken off has printed the beginning
of what the other one prints, because no step takes back what was printed
(`printsOn_step`). `runProgram_of_le` puts the two together.
-/

namespace Monkey

/-- What `m` has printed is the beginning of what `m'` has printed. -/
def Machine.PrintsOn (m m' : Machine) : Prop :=
  ∃ text, m'.printed = m.printed ++ text

namespace Machine.PrintsOn

theorem of_eq {m m' : Machine} (h : m'.printed = m.printed) : m.PrintsOn m' :=
  ⟨"", by rw [h, String.append_empty]⟩

theorem refl (m : Machine) : m.PrintsOn m := of_eq rfl

theorem trans {m₁ m₂ m₃ : Machine} (h : m₁.PrintsOn m₂) (h' : m₂.PrintsOn m₃) :
    m₁.PrintsOn m₃ := by
  obtain ⟨text, htext⟩ := h
  obtain ⟨text', htext'⟩ := h'
  exact ⟨text ++ text', by rw [htext', htext, String.append_assoc]⟩

end Machine.PrintsOn

namespace Stepwise

open Machine (PrintsOn)

/-- The machine of a run, whether it has ended or not. -/
def Progress.machine : Progress → Machine
  | .running c => c.machine
  | .halted _ m => m

/-! ## Printing -/

section Printing

variable {e : Evaluator} {stack : List Pending} {depth : Nat} {m : Machine}

theorem printed_visit (x : Expr) (scope : Scope) :
    (visit stack depth m x scope).machine.printed = m.printed := by
  cases x <;> rfl

theorem printed_resume (v : Value) (f : Frame) :
    (resume stack depth m v f).machine.printed = m.printed := by
  cases f with
  | condition b alternative scope =>
    cases alternative <;> rw [resume] <;> split <;> rfl
  | key x ps entries scope =>
    rw [resume]
    cases v.hashKey? <;> rfl
  | _ => rfl

theorem printsOn_enterCall (arguments : List Value) (f : Value) :
    m.PrintsOn (enterCall e stack depth m arguments f).machine := by
  cases f with
  | function f =>
    rw [enterCall]
    split
    · exact .refl m
    split
    · exact .refl m
    · exact .of_eq rfl
  | native f => exact ⟨(e.library.call f arguments).printed, rfl⟩
  | _ => exact .refl m

theorem printsOn_handOver (v : Value) : m.PrintsOn (handOver depth m v stack).machine := by
  cases stack with
  | nil => exact .refl m
  | cons pending stack =>
    cases pending with
    | call => exact .refl m
    | frame f =>
      rw [handOver]
      split
      · exact .refl m
      · exact .of_eq (printed_resume v f)

/-- A step adds to what was printed and takes nothing back. -/
theorem printsOn_step (e : Evaluator) (c : Config) :
    c.machine.PrintsOn (step e c).machine := by
  unfold step
  split
  case h_1 => exact .of_eq (printed_visit _ _)
  case h_12 => split <;> exact .refl _
  case h_13 => split <;> exact .refl _
  case h_14 => exact printsOn_enterCall _ _
  case h_15 => exact printsOn_handOver _
  all_goals exact .refl _

theorem printsOn_walk (e : Evaluator) : ∀ (n : Nat) (p : Progress),
    p.machine.PrintsOn (walk e n p).machine
  | 0, p => .refl p.machine
  | n + 1, .running c => (printsOn_step e c).trans (printsOn_walk e n (step e c))
  | _ + 1, .halted _ m => .refl m

end Printing

/-! ## Two limits -/

section Limits

variable (library : Library) {d d' : Nat}

theorem enterCall_eq_or_halted (h : d ≤ d') (stack : List Pending) (depth : Nat) (m : Machine)
    (arguments : List Value) (f : Value) :
    enterCall ⟨library, d'⟩ stack depth m arguments f =
        enterCall ⟨library, d⟩ stack depth m arguments f ∨
      enterCall ⟨library, d⟩ stack depth m arguments f = .halted (.depthExceeded d) m := by
  cases f with
  | function f =>
    rw [enterCall, enterCall]
    split
    · exact .inl rfl
    by_cases hreached : d ≤ depth
    · exact .inr (if_pos hreached)
    · have hbelow : ¬d' ≤ depth := fun hle => hreached (Nat.le_trans h hle)
      rw [if_neg hreached, if_neg hbelow]
      exact .inl rfl
  | _ => exact .inl rfl

/-- With a higher limit the same step is taken, or the lower limit ends the run. -/
theorem step_eq_or_halted (h : d ≤ d') (c : Config) :
    step ⟨library, d'⟩ c = step ⟨library, d⟩ c ∨
      step ⟨library, d⟩ c = .halted (.depthExceeded d) c.machine := by
  unfold step
  split
  case h_14 => exact enterCall_eq_or_halted library h _ _ _ _ _
  all_goals exact .inl rfl

/-- With a higher limit the same steps are taken, until the lower limit ends the run. What is
printed from then on comes after what has been printed. -/
theorem walk_eq_or_halted (h : d ≤ d') : ∀ (n : Nat) (p : Progress),
    walk ⟨library, d'⟩ n p = walk ⟨library, d⟩ n p ∨
      ∃ m, walk ⟨library, d⟩ n p = .halted (.depthExceeded d) m ∧
        m.PrintsOn (walk ⟨library, d'⟩ n p).machine
  | 0, _ => .inl rfl
  | n + 1, .halted _ _ => .inl rfl
  | n + 1, .running c => by
    rcases step_eq_or_halted library h c with heq | hhalted
    · have ih := walk_eq_or_halted h n (step ⟨library, d⟩ c)
      rw [walk, walk, heq]
      exact ih
    · refine .inr ⟨c.machine, ?_, printsOn_walk _ (n + 1) (.running c)⟩
      rw [walk, hhalted, walk_halted]

end Limits

/-! ## Programs -/

theorem walk_of_halted {e : Evaluator} {n : Nat} {p : Progress} {outcome : Outcome} {m : Machine}
    (h : walk e n p = .halted outcome m) (k : Nat) : walk e (n + k) p = .halted outcome m := by
  rw [walk_add, h, walk_halted]

theorem printsOn_runProgram (e : Evaluator) (p : Program) (scope : Scope) (m : Machine) :
    m.PrintsOn (e.runProgram p scope m).2 := by
  obtain ⟨n, hn⟩ := leads_runProgram e p scope m
  have hprints := printsOn_walk e n (.running (start p scope m))
  rw [hn] at hprints
  exact hprints

/-- A program's run is the same under a higher limit, or the lower limit breaks it off. -/
theorem runProgram_eq_or_exceeded (library : Library) (p : Program) (scope : Scope) (m : Machine)
    {d d' : Nat} (h : d ≤ d') :
    Evaluator.runProgram ⟨library, d'⟩ p scope m = Evaluator.runProgram ⟨library, d⟩ p scope m ∨
      (Evaluator.runProgram ⟨library, d⟩ p scope m).1 = .depthExceeded d ∧
        (Evaluator.runProgram ⟨library, d⟩ p scope m).2.PrintsOn
          (Evaluator.runProgram ⟨library, d'⟩ p scope m).2 := by
  obtain ⟨n, hn⟩ := leads_runProgram ⟨library, d⟩ p scope m
  obtain ⟨n', hn'⟩ := leads_runProgram ⟨library, d'⟩ p scope m
  -- Both runs have ended after as many steps as the two take together.
  have hlow := walk_of_halted hn n'
  have hhigh := walk_of_halted hn' n
  rw [Nat.add_comm] at hhigh
  rcases walk_eq_or_halted library h (n + n') (.running (start p scope m)) with
    heq | ⟨m', hhalted, hprints⟩
  · rw [hlow, hhigh] at heq
    injection heq with houtcome hmachine
    exact .inl (Prod.ext houtcome hmachine)
  · rw [hlow] at hhalted
    injection hhalted with houtcome hmachine
    rw [hhigh, ← hmachine] at hprints
    exact .inr ⟨houtcome, hprints⟩

end Stepwise

namespace Evaluator

/-- A run that does not end with a value names the limit. -/
theorem runProgram_depthExceeded {e : Evaluator} {p : Program} {scope : Scope} {m : Machine}
    (h : ∀ v, (e.runProgram p scope m).1 ≠ .value v) :
    (e.runProgram p scope m).1 = .depthExceeded e.maxDepth := by
  unfold runProgram finish at h ⊢
  split
  · next v m' heq =>
    rw [heq] at h
    exact absurd rfl (h v)
  · rfl

/-- A run that ends with a value under a limit is the same run under a higher one: the value,
what is printed and what is stored. A run that is broken off under the higher limit names that
limit, and under the lower limit it is broken off too and names the lower one. What a run has
printed when it is broken off is the beginning of what it prints under a higher limit. -/
theorem runProgram_of_le (library : Library) (p : Program) (scope : Scope) (m : Machine)
    {d d' : Nat} (h : d ≤ d') :
    (∀ v, (runProgram ⟨library, d⟩ p scope m).1 = .value v →
        runProgram ⟨library, d'⟩ p scope m = runProgram ⟨library, d⟩ p scope m) ∧
      ((∀ v, (runProgram ⟨library, d'⟩ p scope m).1 ≠ .value v) →
        (runProgram ⟨library, d'⟩ p scope m).1 = .depthExceeded d' ∧
          (runProgram ⟨library, d⟩ p scope m).1 = .depthExceeded d) ∧
      ((∀ v, (runProgram ⟨library, d⟩ p scope m).1 ≠ .value v) →
        ∃ output more,
          (runProgram ⟨library, d⟩ p scope m).2.printed = m.printed ++ output ∧
            (runProgram ⟨library, d'⟩ p scope m).2.printed = m.printed ++ (output ++ more)) := by
  have hcompare := Stepwise.runProgram_eq_or_exceeded library p scope m h
  refine ⟨fun v hv => ?_, fun habort => ?_, fun _ => ?_⟩
  · rcases hcompare with heq | ⟨hexceeded, -⟩
    · exact heq
    · rw [hv] at hexceeded
      cases hexceeded
  · have hhigh := runProgram_depthExceeded habort
    refine ⟨hhigh, ?_⟩
    rcases hcompare with heq | ⟨hexceeded, -⟩
    · rw [heq] at habort
      exact runProgram_depthExceeded habort
    · exact hexceeded
  · obtain ⟨output, houtput⟩ := Stepwise.printsOn_runProgram ⟨library, d⟩ p scope m
    have hmore : (runProgram ⟨library, d⟩ p scope m).2.PrintsOn
        (runProgram ⟨library, d'⟩ p scope m).2 := by
      rcases hcompare with heq | ⟨-, hprints⟩
      · rw [heq]
        exact .refl _
      · exact hprints
    obtain ⟨more, hmore⟩ := hmore
    exact ⟨output, more, houtput, by rw [hmore, houtput, String.append_assoc]⟩

/-- A call of a function with an empty body needs a limit of one. -/
theorem runProgram_of_le_call :
    ∃ p : Program,
      (runProgram ⟨.standard, 1⟩ p ⟨0, []⟩ .new).1 = .value .null ∧
        runProgram ⟨.standard, 2⟩ p ⟨0, []⟩ .new = runProgram ⟨.standard, 1⟩ p ⟨0, []⟩ .new ∧
        (runProgram ⟨.standard, 0⟩ p ⟨0, []⟩ .new).1 = .depthExceeded 0 ∧
        ∃ output more,
          (runProgram ⟨.standard, 0⟩ p ⟨0, []⟩ .new).2.printed = "" ++ output ∧
            (runProgram ⟨.standard, 1⟩ p ⟨0, []⟩ .new).2.printed = "" ++ (output ++ more) := by
  have hlow : ∀ v, (runProgram ⟨.standard, 0⟩ ⟨[.expr default (.call default
      (.function default [] (.mk default [])) [])]⟩ ⟨0, []⟩ .new).1 ≠ .value v := by
    intro v hv
    cases hv
  exact ⟨_, rfl, (runProgram_of_le .standard _ _ _ (by decide)).1 _ rfl, rfl,
    (runProgram_of_le .standard _ _ _ (by decide)).2.2 hlow⟩

end Evaluator

end Monkey
