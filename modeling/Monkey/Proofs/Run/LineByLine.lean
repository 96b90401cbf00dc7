import Monkey.Proofs.Evaluation.Succession
import Monkey.Proofs.Parser.Lines
import Monkey.Proofs.Run.Deletion
import Monkey.Proofs.Run.InputLines

/-!
# Running lines one by one or all at once

Lines that are complete can be run one by one in a session, or all at once, joined by newlines.
Both go the same way. The text has the statements of the lines, but for places
(`parse_intercalate`), the scope of the session is there for all lines, and between two lines
nothing is lost but what has been printed, which is shown at once. So as long as every line
passes, the run of the text is where the session is, behind what the session has printed
(`Session.evalAll_lines`). The first line that fails ends the run of the text as it ends itself
(`Session.evalAll_of_fails`).
-/

namespace Monkey

namespace Session

/-! ## Lines in a session -/

/-- The value of a line, null if it has none. -/
def Step.value (step : Step) : Value :=
  match step.verdict with
  | .ran (.value v) => v
  | _ => .null

theorem Step.verdict_of_message {step : Step} {message : String}
    (h : Datum.message? step.value = some message) :
    step.verdict = .ran (.value (.error message)) := by
  unfold value at h
  split at h
  · next v hverdict =>
    cases v with
    | error text => rw [hverdict, Option.some.inj h]
    | _ => cases h
  · cases h

/-- What lines do, one after the other. -/
def steps : Session → List String → List Step
  | _, [] => []
  | s, line :: lines => (s.step line).1 :: (s.step line).2.steps lines

/-- All that lines print. -/
def printed (steps : List Step) : String := String.join (steps.map Step.printed)

/-- The value of the last line that has tokens, or `latest` if no line has. -/
def lastValue : Session → Value → List String → Value
  | _, latest, [] => latest
  | s, latest, line :: lines =>
    (s.step line).2.lastValue
      (if (Token.scan line).tokens.isEmpty then latest else (s.step line).1.value) lines

/-- How the statements of a line end. -/
def evaluate (s : Session) (line : String) : EStateM.Result Abort Machine Value :=
  Stmt.evalAll s.evaluator.library s.evaluator.apply (parse line).program.statements .null s.scope
    s.machine

/-- Whether a line ends at a `return` outside of functions. -/
def returns (s : Session) (line : String) : Bool :=
  match s.evaluate line with
  | .ok (.returned _) _ => true
  | _ => false

/-- Whether a line fails. -/
def fails (s : Session) (line : String) : Bool :=
  match (s.step line).1.verdict with
  | .ran outcome => outcome.isFailure
  | .malformed _ => false

/-- Whether no line fails, and none ends at a `return` outside of functions. -/
def passAll : Session → List String → Bool
  | _, [] => true
  | s, line :: lines => !s.fails line && !s.returns line && (s.step line).2.passAll lines

variable {maxDepth : Nat} {s : Session} {line : String} {lines : List String}

theorem passAll_cons :
    s.passAll (line :: lines) = true ↔
      s.fails line = false ∧ s.returns line = false ∧ (s.step line).2.passAll lines = true := by
  simp only [passAll, Bool.and_eq_true, Bool.not_eq_true', and_assoc]

theorem runLines_eq_steps (stamp : String) (s : Session) (lines : List String) :
    s.runLines stamp lines =
      ((s.steps lines).flatMap fun step => .written prompt :: step.transcript stamp) ++
        closing stamp := by
  induction lines generalizing s with
  | nil => rfl
  | cons line lines ih =>
    rw [steps, List.flatMap_cons, List.append_assoc, ← ih]
    rfl

theorem step_congr {line' : String} (h : parse line' = parse line) (s : Session) :
    s.step line' = s.step line := by
  unfold step Evaluator.runSource
  rw [h]

/-- A newline at the end of a line makes no difference. -/
theorem steps_newline (hlines : ∀ line ∈ lines, Complete line) (s : Session) :
    s.steps (lines.map (· ++ "\n")) = s.steps lines := by
  induction lines generalizing s with
  | nil => rfl
  | cons line lines ih =>
    have hstep := s.step_congr (hlines line List.mem_cons_self).parse_newline
    have hrest := ih fun other hother => hlines other (List.mem_cons_of_mem line hother)
    rw [List.map_cons, steps, steps, hstep, hrest]

/-- What a complete line does, by how its statements end. -/
theorem step_eq (hline : Complete line) (s : Session) :
    s.step line =
      let run := s.evaluator.conclude (s.evaluate line)
      (⟨run.2.printed, .ran run.1⟩, { s with machine := run.2.drain.2 }) :=
  s.step_of_parsed (List.isEmpty_iff.mpr hline.clean) (Evaluator.runProgram_eq_conclude _ _ _ _)

theorem fails_eq (hline : Complete line) (s : Session) :
    s.fails line = (s.evaluator.conclude (s.evaluate line)).1.isFailure := by
  rw [fails, step_eq hline]

/-- A line that passes gives a value that is no signal. -/
theorem evaluate_of_passes (hline : Complete line) (hfails : s.fails line = false)
    (hreturns : s.returns line = false) :
    ∃ v m, s.evaluate line = .ok v m ∧ v.isSignal = false := by
  rw [fails_eq hline] at hfails
  unfold returns at hreturns
  cases hresult : s.evaluate line with
  | error why m =>
    rw [hresult] at hfails
    cases hfails
  | ok v m =>
    rw [hresult] at hfails hreturns
    refine ⟨v, m, rfl, ?_⟩
    cases v with
    | error message => cases hfails
    | returned v => cases hreturns
    | _ => rfl

theorem evaluator_after (s : Session) (lines : List String) :
    (s.after lines).evaluator = s.evaluator := by
  induction lines generalizing s with
  | nil => rfl
  | cons line lines ih => exact ih (s.step line).2

/-! ## The statements of lines, one after the other -/

/-- How statements without tokens go on behind a line. -/
theorem evalAll_line (hs : s.evaluator = .standard maxDepth)
    (hne : (parse line).program.statements ≠ []) (ts : List Stmt) (text : String) (latest : Value) :
    Stmt.evalAll Library.standard (applyValue Library.standard maxDepth)
        (bareStatements line ++ ts) latest s.scope (s.machine.bare.behind text) =
      match s.evaluate line with
      | .ok v m =>
        if v.isSignal then .ok v.bare (m.bare.behind text)
        else Stmt.evalAll Library.standard (applyValue Library.standard maxDepth) ts v.bare s.scope
          (m.bare.behind text)
      | .error why m => .error why (m.bare.behind text) := by
  unfold evaluate
  rw [hs]
  exact Stmt.evalAll_bare_append hne ts text latest .null s.machine

/-- Behind a line that passes, statements go on where the session is. -/
theorem evalAll_of_passes (hs : s.evaluator = .standard maxDepth) (hline : Complete line)
    (hfails : s.fails line = false) (hreturns : s.returns line = false) (ts : List Stmt)
    (text : String) (latest : Value) :
    Stmt.evalAll Library.standard (applyValue Library.standard maxDepth)
        (bareStatements line ++ ts) latest.bare s.scope (s.machine.bare.behind text) =
      Stmt.evalAll Library.standard (applyValue Library.standard maxDepth) ts
        (if (Token.scan line).tokens.isEmpty then latest else (s.step line).1.value).bare s.scope
        ((s.step line).2.machine.bare.behind (text ++ (s.step line).1.printed)) := by
  obtain ⟨v, m, hresult, hsignal⟩ := evaluate_of_passes hline hfails hreturns
  have hmachine : m.drain.2.bare.behind (text ++ m.printed) = m.bare.behind text :=
    m.bare.behind_drain text
  rw [step_eq hline, hresult, Evaluator.conclude, Value.unwrapReturned_of_isSignal hsignal]
  dsimp only
  rw [hmachine]
  by_cases hnil : (parse line).program.statements = []
  · have hnone : s.evaluate line = .ok .null s.machine := by rw [evaluate, hnil]; rfl
    obtain ⟨rfl, rfl⟩ : v = .null ∧ m = s.machine := by simpa [hnone] using hresult.symm
    rw [hline.statements_eq_nil_iff.mp hnil, bareStatements, hnil]
    rfl
  · have htokens := mt hline.statements_eq_nil_iff.mpr hnil
    rw [evalAll_line hs hnil, hresult]
    simp only [hsignal, List.isEmpty_iff, htokens]
    rfl

/-- As long as lines pass, the run of all statements is where the session is, behind what the
session has printed. -/
theorem evalAll_lines (hs : s.evaluator = .standard maxDepth)
    (hlines : ∀ line ∈ lines, Complete line) (hpass : s.passAll lines = true) (ts : List Stmt)
    (text : String) (latest : Value) :
    Stmt.evalAll Library.standard (applyValue Library.standard maxDepth)
        (lines.flatMap bareStatements ++ ts) latest.bare s.scope (s.machine.bare.behind text) =
      Stmt.evalAll Library.standard (applyValue Library.standard maxDepth) ts
        (s.lastValue latest lines).bare s.scope
        ((s.after lines).machine.bare.behind (text ++ printed (s.steps lines))) := by
  induction lines generalizing s text latest with
  | nil => simp [printed, steps, lastValue, after]
  | cons line lines ih =>
    have hline := hlines line List.mem_cons_self
    have hlines' := fun other hother => hlines other (List.mem_cons_of_mem line hother)
    obtain ⟨hfails, hreturns, hpass'⟩ := passAll_cons.mp hpass
    have hrest := ih (s := (s.step line).2) hs hlines' hpass' (text ++ (s.step line).1.printed)
      (if (Token.scan line).tokens.isEmpty then latest else (s.step line).1.value)
    rw [List.flatMap_cons, List.append_assoc, evalAll_of_passes hs hline hfails hreturns]
    rw [String.append_assoc] at hrest
    rw [steps, printed, List.map_cons, String.join_cons]
    exact hrest

/-- A line that fails ends the run of all statements as it ends itself. -/
theorem evalAll_of_fails (hs : s.evaluator = .standard maxDepth) (hline : Complete line)
    (hfails : s.fails line = true) (ts : List Stmt) (text : String) (latest : Value) :
    Stmt.evalAll Library.standard (applyValue Library.standard maxDepth)
        (bareStatements line ++ ts) latest s.scope (s.machine.bare.behind text) =
      behindResult text (bareResult Value.bare (s.evaluate line)) := by
  rw [fails_eq hline] at hfails
  have hne : (parse line).program.statements ≠ [] := by
    intro hnil
    rw [evaluate, hnil] at hfails
    cases hfails
  rw [evalAll_line hs hne]
  cases hresult : s.evaluate line with
  | error why m => rfl
  | ok v m =>
    have hsignal : v.isSignal = true := by
      rw [hresult] at hfails
      cases v with
      | returned v => rfl
      | error message => rfl
      | _ => cases hfails
    simp only [hsignal]
    rfl

/-! ## All lines at once -/

/-- The run of lines joined by newlines ends as that of their statements does, but for tokens. -/
theorem runSource_intercalate (maxDepth : Nat) (hlines : ∀ line ∈ lines, Complete line)
    (scope : Scope) (m : Machine) :
    ∃ r, Stmt.evalAll Library.standard (applyValue Library.standard maxDepth)
        (lines.flatMap bareStatements) .null scope m.bare = bareResult Value.bare r ∧
      (Evaluator.standard maxDepth).runSource ("\n".intercalate lines) scope m =
        (.ran ((Evaluator.standard maxDepth).conclude r).1,
          ((Evaluator.standard maxDepth).conclude r).2) := by
  obtain ⟨hclean, hbare⟩ := parse_intercalate hlines
  have heval := erases_stmts (erases_apply maxDepth)
    (parse ("\n".intercalate lines)).program.statements .null scope m
  rw [← bareStatements, hbare] at heval
  refine ⟨_, heval, ?_⟩
  unfold Evaluator.runSource
  dsimp only
  rw [hclean, Evaluator.runProgram_eq_conclude]
  rfl

theorem drained_after (hs : s.machine.printed = "") (lines : List String) :
    (s.after lines).machine.printed = "" := by
  induction lines generalizing s with
  | nil => exact hs
  | cons line lines ih => exact ih rfl

theorem isSignal_lastValue {latest : Value} (hlatest : latest.isSignal = false)
    (hlines : ∀ line ∈ lines, Complete line) (hpass : s.passAll lines = true) :
    (s.lastValue latest lines).isSignal = false := by
  induction lines generalizing s latest with
  | nil => exact hlatest
  | cons line lines ih =>
    have hline := hlines line List.mem_cons_self
    obtain ⟨hfails, hreturns, hpass'⟩ := passAll_cons.mp hpass
    refine ih ?_ (fun other hother => hlines other (List.mem_cons_of_mem line hother)) hpass'
    split
    · exact hlatest
    · obtain ⟨v, m, hresult, hsignal⟩ := evaluate_of_passes hline hfails hreturns
      rw [step_eq hline, hresult, Evaluator.conclude, Value.unwrapReturned_of_isSignal hsignal]
      exact hsignal

/-- If every line passes, the text has the value of the last line that has tokens, and leaves
the machine of the session. -/
theorem runSource_of_passAll (hs : s.evaluator = .standard maxDepth)
    (hdrained : s.machine.printed = "") (hlines : ∀ line ∈ lines, Complete line)
    (hpass : s.passAll lines = true) :
    ∃ v m, (Evaluator.standard maxDepth).runSource ("\n".intercalate lines) s.scope s.machine =
        (.ran (.value v), m) ∧
      v.isSignal = false ∧ v.bare = (s.lastValue .null lines).bare ∧
      m.printed = printed (s.steps lines) ∧ m.drain.2.bare = (s.after lines).machine.bare := by
  obtain ⟨r, hrun, hsource⟩ := runSource_intercalate maxDepth hlines s.scope s.machine
  have hplain : (s.lastValue .null lines).isSignal = false := isSignal_lastValue rfl hlines hpass
  have heval := evalAll_lines hs hlines hpass [] "" .null
  rw [List.append_nil, Machine.behind_empty, String.empty_append, Value.bare, hrun] at heval
  cases r with
  | error why m => cases heval
  | ok v m =>
    obtain ⟨hv, hm⟩ := EStateM.Result.ok.inj heval
    have hsignal : v.isSignal = false := by
      rw [← (Value.like_bare v).isSignal, hv, (Value.like_bare _).isSignal, hplain]
    have hleft := drained_after hdrained lines
    refine ⟨v, m, ?_, hsignal, hv, ?_, ?_⟩
    · rw [hsource, Evaluator.conclude, Value.unwrapReturned_of_isSignal hsignal]
    · have hprinted : m.printed = printed (s.steps lines) ++ (s.after lines).machine.printed :=
        congrArg Machine.printed hm
      rw [hprinted, hleft, String.append_empty]
    · rw [Machine.bare_drain hm, Machine.drain_of_printed hleft]

theorem steps_append (s : Session) (lines lines' : List String) :
    s.steps (lines ++ lines') = s.steps lines ++ (s.after lines).steps lines' := by
  induction lines generalizing s with
  | nil => rfl
  | cons line lines ih =>
    rw [List.cons_append, steps, steps, ih, List.cons_append]
    rfl

/-- A text ends as the first of its lines that fails. -/
theorem runSource_of_fails (hs : s.evaluator = .standard maxDepth) {earlier later : List String}
    (hlines : ∀ other ∈ earlier ++ line :: later, Complete other)
    (hpass : s.passAll earlier = true) (hfails : (s.after earlier).fails line = true) :
    ∃ o m, (Evaluator.standard maxDepth).runSource ("\n".intercalate (earlier ++ line :: later))
        s.scope s.machine = (.ran o, m) ∧
      ((s.after earlier).step line).1.verdict = .ran o ∧
      m.printed = printed (s.steps (earlier ++ [line])) := by
  obtain ⟨r, hrun, hsource⟩ := runSource_intercalate maxDepth hlines s.scope s.machine
  have hline : Complete line := hlines line (List.mem_append_right _ List.mem_cons_self)
  have hearlier : ∀ other ∈ earlier, Complete other := fun other hother =>
    hlines other (List.mem_append_left _ hother)
  have hs' := (s.evaluator_after earlier).trans hs
  have heval : bareResult Value.bare r = behindResult (printed (s.steps earlier))
      (bareResult Value.bare ((s.after earlier).evaluate line)) := by
    have hlater := evalAll_lines hs hearlier hpass
      (bareStatements line ++ later.flatMap bareStatements) "" .null
    rw [Machine.behind_empty, String.empty_append, Value.bare, ← s.scope_after earlier,
      evalAll_of_fails hs' hline hfails] at hlater
    rw [← hrun, ← hlater, List.flatMap_append, List.flatMap_cons, s.scope_after]
  have hends := congrArg (Evaluator.standard maxDepth).conclude heval
  rw [Evaluator.conclude_behindResult, Evaluator.conclude_bareResult,
    Evaluator.conclude_bareResult] at hends
  obtain ⟨ho, hm⟩ := Prod.mk.inj hends
  rw [fails_eq hline, hs'] at hfails
  have hstep := step_eq hline (s.after earlier)
  rw [hs'] at hstep
  refine ⟨_, _, hsource, ?_, ?_⟩
  · rw [hstep, Outcome.eq_of_bare_eq ho hfails]
  · have hprinted : _ = _ := congrArg Machine.printed hm
    rw [steps_append, steps, steps, printed, List.map_append, String.join_append, hstep,
      List.map_singleton, String.join_cons, String.join_nil, String.append_empty]
    exact hprinted

theorem runBytes_of_runSource {e : Evaluator} {text : String} {verdict : Verdict} {m : Machine}
    (h : e.runSource text (start e).scope (start e).machine = (verdict, m)) :
    e.runBytes text.toUTF8 = ⟨BatchRun.judge verdict, m.printed⟩ := by
  have hrun : e.runText text = _ := congrArg
    (fun r : Verdict × Machine => BatchRun.mk (BatchRun.judge r.1) r.2.printed) h
  rw [Evaluator.runBytes, Utf8.decode?_toUTF8]
  exact hrun

/-- A source fails with the first of its lines that fails. -/
theorem runBytes_of_fails {earlier later : List String} {o : Outcome}
    (hlines : ∀ other ∈ earlier ++ line :: later, Complete other)
    (hpass : (start (.standard maxDepth)).passAll earlier = true)
    (hverdict : (((start (.standard maxDepth)).after earlier).step line).1.verdict = .ran o)
    (ho : o.isFailure = true) :
    (Evaluator.standard maxDepth).runBytes ("\n".intercalate (earlier ++ line :: later)).toUTF8 =
      ⟨BatchRun.judge (.ran o),
        printed ((start (.standard maxDepth)).steps (earlier ++ [line]))⟩ := by
  have hfails : ((start (.standard maxDepth)).after earlier).fails line = true := by
    rw [fails, hverdict]
    exact ho
  obtain ⟨o', m, hsource, hverdict', hprinted⟩ := runSource_of_fails rfl hlines hpass hfails
  obtain rfl := Verdict.ran.inj (hverdict'.symm.trans hverdict)
  rw [runBytes_of_runSource hsource, hprinted]

/-- **Lines can be run one by one or all at once.** Let lines be complete, and enter them into a
session with the standard library, which then shows what it does for each of them. If no line
fails or ends at a `return` outside of functions, then the run of the lines joined by newlines
gives the value of the last line that has tokens, or null, and has printed what all lines print.
The values differ in nothing but the tokens of their functions, and so do the machines that are
left, once what has been printed is taken away. If a line fails and those before it do not, and do
not end at a `return` outside of functions, then the run of the text fails with the text of the
error or with the limit of the line, and has printed what the lines up to that one print. -/
theorem runBytes_intercalate (maxDepth : Nat) (lines : List String)
    (hnewline : ∀ line ∈ lines, '\n' ∉ line.toList) (hlines : ∀ line ∈ lines, Complete line) :
    let e := Evaluator.standard maxDepth
    let s := start e
    let text := "\n".intercalate lines
    (∀ stamp, runInput stamp e (entered lines) =
      ((s.steps lines).flatMap fun step => .written prompt :: step.transcript stamp) ++
        closing stamp) ∧
    (s.passAll lines = true →
      ∃ v m, e.runBytes text.toUTF8 = ⟨.ok v, printed (s.steps lines)⟩ ∧
        v.bare = (s.lastValue .null lines).bare ∧
        e.runSource text s.scope s.machine = (.ran (.value v), m) ∧
        m.drain.2.bare = (s.after lines).machine.bare) ∧
    ∀ earlier line later, lines = earlier ++ line :: later → s.passAll earlier = true →
      (∀ message, ((s.after earlier).step line).1.verdict = .ran (.value (.error message)) →
        e.runBytes text.toUTF8 = ⟨.error (.runtime (Value.error message).render),
          printed (s.steps (earlier ++ [line]))⟩) ∧
      ∀ limit, ((s.after earlier).step line).1.verdict = .ran (.depthExceeded limit) →
        e.runBytes text.toUTF8 =
          ⟨.error (.fatal limit), printed (s.steps (earlier ++ [line]))⟩ := by
  intro e s text
  refine ⟨fun stamp => ?_, fun hpass => ?_, fun earlier line later hsplit hpass => ?_⟩
  · rw [runInput_entered stamp e hnewline, runLines_eq_steps, steps_newline hlines]
  · obtain ⟨v, m, hsource, hsignal, hvalue, hprinted, hleft⟩ :=
      runSource_of_passAll (s := s) rfl rfl hlines hpass
    have hok : BatchRun.judge (.ran (.value v)) = .ok v := by
      cases v with
      | error message => cases hsignal
      | _ => rfl
    refine ⟨v, m, ?_, hvalue, hsource, hleft⟩
    rw [runBytes_of_runSource hsource, hok, hprinted]
  · subst hsplit
    exact ⟨fun message hverdict => runBytes_of_fails hlines hpass hverdict rfl,
      fun limit hverdict => runBytes_of_fails hlines hpass hverdict rfl⟩

/-- A function is called, and then with a name that has no value. -/
theorem runBytes_intercalate_unbound :
    (∃ v, (Evaluator.standard 1).runBytes ("\n".intercalate
          ["let f = fn(x) { puts(x) };", " ", "f(2); 3;"]).toUTF8 = ⟨.ok v, "2\n"⟩ ∧
        v.render = "3") ∧
      (Evaluator.standard 1).runBytes ("\n".intercalate
          ["let f = fn(x) { puts(x) };", " ", "f(2); f(y);", "return 1;"]).toUTF8 =
        ⟨.error (.runtime "ERROR: identifier not found: y"), "2\n"⟩ := by
  constructor
  · have hprinted : printed ((start (.standard 1)).steps
        ["let f = fn(x) { puts(x) };", " ", "f(2); 3;"]) = "2\n" := by decide +kernel
    have hrender : ((start (.standard 1)).lastValue .null
        ["let f = fn(x) { puts(x) };", " ", "f(2); 3;"]).render = "3" := by decide +kernel
    obtain ⟨-, hpasses, -⟩ := runBytes_intercalate 1 ["let f = fn(x) { puts(x) };", " ", "f(2); 3;"]
      (by decide +kernel) (by decide +kernel)
    obtain ⟨v, -, hrun, hvalue, -⟩ := hpasses (by decide +kernel)
    refine ⟨v, hrun.trans (by rw [hprinted]), ?_⟩
    rw [← v.render_bare, hvalue, Value.render_bare, hrender]
  · have hprinted : printed ((start (.standard 1)).steps
        ["let f = fn(x) { puts(x) };", " ", "f(2); f(y);"]) = "2\n" := by decide +kernel
    have hmessage : Datum.message? (((start (.standard 1)).after
        ["let f = fn(x) { puts(x) };", " "]).step "f(2); f(y);").1.value =
          some "identifier not found: y" := by decide +kernel
    obtain ⟨-, -, hfails⟩ := runBytes_intercalate 1
      ["let f = fn(x) { puts(x) };", " ", "f(2); f(y);", "return 1;"]
      (by decide +kernel) (by decide +kernel)
    obtain ⟨herror, -⟩ := hfails ["let f = fn(x) { puts(x) };", " "] "f(2); f(y);" ["return 1;"] rfl
      (by decide +kernel)
    exact (herror _ (Step.verdict_of_message hmessage)).trans (congrArg _ hprinted)

end Session

end Monkey
