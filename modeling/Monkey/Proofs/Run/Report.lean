import Mathlib.Data.List.Basic
import Monkey.Proofs.Run.InputLines
import Monkey.Run.Elapsed

/-!
# The report on a text that is refused

A text that is refused gets a report: a heading, and an entry for each diagnostic, each with a
stamp in front and a newline behind. The batch runner and a session write the same report
(`Evaluator.written_runBytes`, `Session.written_step`).

An entry quotes the literal of a token, as it was written. Nothing else in it can hold a newline:
not the stamp (`Elapsed.oneLine_render`), not the place, not the wording
(`Diagnostic.newlines_message`). So an entry is one line for each newline of the
literal, and one more. The report has a line for the heading and one for each diagnostic exactly
if no literal that is quoted holds a newline (`report_lines_iff`). A string can, and so can one
that is never closed, which takes along the newline of the line it is entered on.
-/

namespace Monkey

/-! ## Lines of a text -/

/-- The parts of a text between its newlines. -/
def brokenUp (text : String) : List String := (text.toList.splitOn '\n').map String.ofList

/-- The lines of a text, without their newlines. Text after the last newline is no line. -/
def linesOf (text : String) : List String := (brokenUp text).dropLast

/-- How many newlines a text has. -/
def newlines (text : String) : Nat := text.toList.count '\n'

/-- A text without newlines. -/
def OneLine (text : String) : Prop := '\n' ∉ text.toList

instance (text : String) : Decidable (OneLine text) :=
  inferInstanceAs (Decidable ('\n' ∉ text.toList))

theorem OneLine.append {s t : String} (hs : OneLine s) (ht : OneLine t) : OneLine (s ++ t) := by
  unfold OneLine at *
  rw [String.toList_append, List.mem_append]
  exact not_or.mpr ⟨hs, ht⟩

theorem newlines_eq_zero_iff {text : String} : newlines text = 0 ↔ OneLine text :=
  List.count_eq_zero

theorem newlines_append (s t : String) : newlines (s ++ t) = newlines s + newlines t := by
  rw [newlines, String.toList_append, List.count_append]
  rfl

theorem oneLine_join {texts : List String} :
    OneLine (String.join texts) ↔ ∀ text ∈ texts, OneLine text := by
  induction texts with
  | nil => simp [OneLine]
  | cons text texts ih =>
    rw [String.join_cons, List.forall_mem_cons, ← ih, ← newlines_eq_zero_iff, newlines_append,
      ← newlines_eq_zero_iff, ← newlines_eq_zero_iff]
    omega

theorem brokenUp_of_oneLine {text : String} (h : OneLine text) : brokenUp text = [text] := by
  rw [brokenUp, List.splitOn_eq_singleton h, List.map_singleton, String.ofList_toList]

theorem length_splitOn_newline (cs : List Char) :
    (cs.splitOn '\n').length = cs.count '\n' + 1 := by
  induction cs with
  | nil => rfl
  | cons c cs ih =>
    rw [List.splitOn_cons_eq_if_modifyHead, List.count_cons]
    split
    · rw [List.length_cons, ih]
    · rw [List.length_modifyHead, ih]

theorem length_brokenUp (text : String) : (brokenUp text).length = newlines text + 1 := by
  rw [brokenUp, List.length_map, length_splitOn_newline, newlines]

theorem brokenUp_append_newline (text rest : String) :
    brokenUp (text ++ "\n" ++ rest) = brokenUp text ++ brokenUp rest := by
  have hlist : (text ++ "\n" ++ rest).toList = text.toList ++ '\n' :: rest.toList := by
    simp [String.toList_append]
  rw [brokenUp, hlist, List.splitOn_append_cons_self, List.map_append]
  rfl

/-- Texts that are written one below the other keep their lines. -/
theorem linesOf_join (texts : List String) :
    linesOf (String.join (texts.map (· ++ "\n"))) = texts.flatMap brokenUp := by
  have hbroken : brokenUp (String.join (texts.map (· ++ "\n"))) =
      texts.flatMap brokenUp ++ [""] := by
    induction texts with
    | nil => rfl
    | cons text texts ih =>
      rw [List.map_cons, String.join_cons, brokenUp_append_newline, ih, List.flatMap_cons,
        List.append_assoc]
  rw [linesOf, hbroken, List.dropLast_concat]

/-! ## Stamps -/

theorem oneLine_toString (n : Nat) : OneLine (toString n) := by
  unfold OneLine
  rw [Nat.toString_eq_repr, Nat.toList_repr]
  intro hmem
  exact absurd (Nat.isDigit_of_mem_toDigits (by decide) (by decide) hmem) (by decide)

namespace Elapsed

theorem oneLine_fraction (thousandths : Nat) : OneLine (fraction thousandths) := by
  unfold fraction
  split
  · decide
  · have hzeros : OneLine (String.ofList
        (List.replicate (3 - (toString thousandths).length) '0')) := by
      simp [OneLine]
    have hdigits : OneLine (padded 3 thousandths) := hzeros.append (oneLine_toString thousandths)
    refine OneLine.append (by decide) fun hmem => hdigits ?_
    rw [String.toList_ofList, List.mem_reverse] at hmem
    exact List.mem_reverse.mp ((List.dropWhile_sublist _).mem hmem)

/-- A stamp is on one line. -/
theorem oneLine_render (e : Elapsed) : OneLine e.render := by
  unfold render
  split
  · decide
  split
  · exact (oneLine_toString _).append (by decide)
  · unfold clock
    refine .append (.append (.append (.append ?_ ?_) (oneLine_toString _)) (oneLine_fraction _))
      (by decide)
    · split
      · decide
      · exact (oneLine_toString _).append (by decide)
    · split
      · decide
      · exact (oneLine_toString _).append (by decide)

end Elapsed

/-! ## Entries -/

theorem Token.Kind.oneLine_name (k : Token.Kind) : OneLine k.name := by
  cases k <;> decide

namespace Diagnostic

/-- A complaint quotes the literal of its token once, in words without newlines. -/
theorem exists_complaint_eq (d : Diagnostic) : ∃ before behind,
    d.complaint = before ++ quote d.token ++ behind ∧ OneLine before ∧ OneLine behind := by
  cases d with
  | unexpected expected found =>
    refine ⟨"expected next token to be " ++ expected.name ++ ", got " ++ found.kind.name ++ " (",
      ") instead", rfl, ?_, by decide +kernel⟩
    have hexpected : OneLine ("expected next token to be " ++ expected.name) :=
      .append (by decide +kernel) expected.oneLine_name
    exact .append (.append (hexpected.append (by decide)) found.kind.oneLine_name) (by decide)
  | noExpression found =>
    refine ⟨"no prefix parse function for " ++ found.kind.name ++ " (", ") found", rfl, ?_,
      by decide +kernel⟩
    exact .append (.append (by decide +kernel) found.kind.oneLine_name) (by decide)
  | illegal found => exact ⟨"illegal token (", ")", rfl, by decide +kernel, by decide⟩
  | integerRange found =>
    exact ⟨"could not parse ", " as integer", rfl, by decide +kernel, by decide +kernel⟩

/-- The newlines of a message are those of the literal that it quotes. -/
theorem newlines_message (d : Diagnostic) : newlines d.message = newlines d.token.literal := by
  obtain ⟨before, behind, hcomplaint, hbefore, hbehind⟩ := d.exists_complaint_eq
  have hplace : OneLine (d.token.location.render ++ ": ") :=
    .append (.append (.append (oneLine_toString _) (by decide)) (oneLine_toString _)) (by decide)
  have hmark : newlines "\"" = 0 := by decide
  rw [← newlines_eq_zero_iff] at hbefore hbehind hplace
  rw [message, hcomplaint, quote]
  simp only [newlines_append, hbefore, hbehind, hplace, hmark]
  omega

end Diagnostic

/-! ## Reports -/

/-- A text behind a stamp. -/
def behindStamp (stamp text : String) : String := "(" ++ stamp ++ ") " ++ text

/-- What a report says, one text after the other. -/
def reportTexts (stamp : String) (ds : List Diagnostic) : List String :=
  behindStamp stamp "Error:" :: ds.map fun d => behindStamp stamp ("\t" ++ d.message)

theorem newlines_behindStamp {stamp : String} (hstamp : OneLine stamp) (text : String) :
    newlines (behindStamp stamp text) = newlines text := by
  have hfront : OneLine ("(" ++ stamp ++ ") ") := .append (.append (by decide) hstamp) (by decide)
  rw [behindStamp, newlines_append, newlines_eq_zero_iff.mpr hfront, Nat.zero_add]

theorem diagnosticLines_eq_join (stamp : String) (ds : List Diagnostic) :
    diagnosticLines stamp ds = String.join ((reportTexts stamp ds).map (· ++ "\n")) := by
  rw [diagnosticLines, reportTexts, List.map_cons, String.join_cons, List.map_map]
  rfl

variable {stamp : String}

theorem brokenUp_heading (hstamp : OneLine stamp) :
    brokenUp (behindStamp stamp "Error:") = [behindStamp stamp "Error:"] := by
  refine brokenUp_of_oneLine (newlines_eq_zero_iff.mp ?_)
  rw [newlines_behindStamp hstamp]
  decide

theorem newlines_entry (hstamp : OneLine stamp) (d : Diagnostic) :
    newlines (behindStamp stamp ("\t" ++ d.message)) = newlines d.token.literal := by
  have htab : newlines "\t" = 0 := by decide
  rw [newlines_behindStamp hstamp, newlines_append, htab, Nat.zero_add, d.newlines_message]

/-- The lines of a report: the heading, and as many for each diagnostic as the literal that it
quotes has newlines, and one more. -/
theorem linesOf_diagnosticLines (hstamp : OneLine stamp) (ds : List Diagnostic) :
    linesOf (diagnosticLines stamp ds) = behindStamp stamp "Error:" ::
      ds.flatMap fun d => brokenUp (behindStamp stamp ("\t" ++ d.message)) := by
  rw [diagnosticLines_eq_join, linesOf_join, reportTexts, List.flatMap_cons,
    brokenUp_heading hstamp, List.flatMap_map]
  rfl

theorem length_linesOf_diagnosticLines (hstamp : OneLine stamp) (ds : List Diagnostic) :
    (linesOf (diagnosticLines stamp ds)).length =
      ds.length + 1 + newlines (String.join (ds.map fun d => d.token.literal)) := by
  rw [linesOf_diagnosticLines hstamp, List.length_cons]
  induction ds with
  | nil => rfl
  | cons d ds ih =>
    rw [List.flatMap_cons, List.length_append, length_brokenUp, newlines_entry hstamp,
      List.map_cons, String.join_cons, newlines_append, List.length_cons]
    omega

/-- A report has a line for the heading and one for each diagnostic exactly if no literal that
is quoted has a newline. -/
theorem linesOf_diagnosticLines_eq_iff (hstamp : OneLine stamp) (ds : List Diagnostic) :
    linesOf (diagnosticLines stamp ds) = reportTexts stamp ds ↔
      ∀ d ∈ ds, OneLine d.token.literal := by
  constructor
  · intro hlines d hd
    have hlength := congrArg List.length hlines
    rw [length_linesOf_diagnosticLines hstamp, reportTexts, List.length_cons,
      List.length_map] at hlength
    have hjoin : newlines (String.join (ds.map fun d => d.token.literal)) = 0 := by omega
    exact oneLine_join.mp (newlines_eq_zero_iff.mp hjoin) _ (List.mem_map_of_mem hd)
  · intro hliterals
    rw [linesOf_diagnosticLines hstamp, reportTexts, List.map_eq_flatMap]
    refine congrArg _ (List.flatMap_congr fun d hd => brokenUp_of_oneLine ?_)
    rw [← newlines_eq_zero_iff, newlines_entry hstamp, newlines_eq_zero_iff]
    exact hliterals d hd

/-! ## Runners -/

section Runners

variable {source : String} (hrefused : (parse source).diagnostics ≠ [])
include hrefused

theorem Evaluator.runSource_of_refused (e : Evaluator) (scope : Scope) (m : Machine) :
    e.runSource source scope m = (.malformed (parse source).diagnostics, m) := by
  unfold runSource
  rw [if_neg (by simpa using hrefused)]

/-- What the batch runner writes about a text that is refused. -/
theorem Evaluator.written_runBytes (e : Evaluator) (stamp : String) :
    ((e.runBytes source.toUTF8).transcript stamp).written =
      diagnosticLines stamp (parse source).diagnostics := by
  unfold runBytes runText
  rw [Utf8.decode?_toUTF8]
  dsimp only
  rw [e.runSource_of_refused hrefused]
  simp [BatchRun.judge, BatchRun.transcript, Transcript.written, Failure.lines]

/-- What a session writes about a line that is refused. -/
theorem Session.written_step (s : Session) (stamp : String) :
    ((s.step source).1.transcript stamp).written =
      diagnosticLines stamp (parse source).diagnostics := by
  unfold step
  rw [s.evaluator.runSource_of_refused hrefused]
  simp [Step.transcript, Step.lines, Transcript.written]

end Runners

/-- **The report on a text that is refused.** The batch runner and a session write the same. It
starts with a heading and has an entry for each diagnostic, in order, each behind a stamp, and an
entry has as many lines as the literal that it quotes has newlines, and one more. So the
heading and the entries are the lines of the report exactly if no literal has a newline. -/
theorem report_lines_iff (e : Evaluator) (s : Session) (elapsed : Elapsed) {source : String}
    (hrefused : (parse source).diagnostics ≠ []) :
    let stamp := elapsed.render
    let ds := (parse source).diagnostics
    let report := ((e.runBytes source.toUTF8).transcript stamp).written
    ((s.step source).1.transcript stamp).written = report ∧
      report = String.join ((reportTexts stamp ds).map (· ++ "\n")) ∧
      (linesOf report).length =
        ds.length + 1 + newlines (String.join (ds.map fun d => d.token.literal)) ∧
      (linesOf report = reportTexts stamp ds ↔ ∀ d ∈ ds, OneLine d.token.literal) := by
  intro stamp ds report
  have hreport : report = diagnosticLines stamp ds := e.written_runBytes hrefused stamp
  have hstamp : OneLine stamp := elapsed.oneLine_render
  rw [s.written_step hrefused, hreport]
  exact ⟨rfl, diagnosticLines_eq_join stamp ds, length_linesOf_diagnosticLines hstamp ds,
    linesOf_diagnosticLines_eq_iff hstamp ds⟩

/-- The literals of this text are on one line, so the report has a line for each diagnostic. -/
theorem report_lines_of_oneLine :
    let report := (((Evaluator.standard 1).runBytes "let = 1;".toUTF8).transcript
      (Elapsed.render ⟨0⟩)).written
    linesOf report =
      reportTexts (Elapsed.render ⟨0⟩) (parse "let = 1;").diagnostics := by
  have hrefused : (parse "let = 1;").diagnostics ≠ [] := by decide +kernel
  exact (report_lines_iff (.standard 1) (.start (.standard 1)) ⟨0⟩ hrefused).2.2.2.mpr
    (by decide +kernel)

/-- A string that is not closed, entered in a session, takes the newline of its line into the
report: of the two lines for the only diagnostic, one has no stamp. -/
theorem report_lines_of_unclosed :
    let report := (((Session.start (.standard 1)).step "\"abc\n").1.transcript
      (Elapsed.render ⟨0⟩)).written
    (parse "\"abc\n").diagnostics.length = 1 ∧
      linesOf report = ["(0s) Error:", "(0s) \t1:1: illegal token (\"\"abc", "\")"] := by
  decide +kernel

end Monkey
