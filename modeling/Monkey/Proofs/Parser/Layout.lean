import Monkey.Proofs.Parser.Placement
import Monkey.Proofs.Scanning.Order

/-!
# Layout between tokens

Blanks in front of a token change nothing but places. No lexeme before them can take them or go on
behind them (`Fits.before_gap`), so a text and the same text with more blanks in front of one of
its tokens have the same words (`Token.Tiles.words_insert`). Their tokens differ in their places
alone, and parsing does not look at those (`TokenStream.parse_relocate`).
-/

namespace Monkey

open Token (Kind)

/-! ## Scanning -/

theorem words_gap {gap : List Char} (hgap : ∀ c ∈ gap, isBlank c = true) (cs : List Char) :
    words (gap ++ cs) = words cs := by
  induction gap with
  | nil => rfl
  | cons c gap ih =>
    rw [List.cons_append, words_blank (hgap c (by simp)),
      ih fun d hd => hgap d (List.mem_cons_of_mem c hd)]

/-- What fits at the start of a text is its first word. -/
theorem words_of_fits {kind : Kind} {w rest : List Char} (h : Fits kind w rest) :
    words (kind.lexeme w ++ rest) = (kind, w) :: words rest := by
  obtain ⟨c, cs, extent, htext, hblank, hread⟩ := Lexeme.read_of_fits h
  rw [htext, words_cons hblank, hread]

namespace Token

/-- Blanks in front of a token leave the words of a text as they are. -/
theorem Tiles.words_insert {before cs : List Char} {ts : List Token} (h : Tiles before cs ts)
    {t : Token} (ht : t ∈ ts) {x y gap : List Char} (hcs : cs = x ++ y)
    (hplace : t.location = .behind (before ++ x)) (hgap : ∀ c ∈ gap, isBlank c = true) :
    words (x ++ (gap ++ y)) = words (x ++ y) := by
  induction h generalizing x with
  | blank => cases ht
  | @token before space rest u ts hspace hu hfits htiles ih =>
    have hx : x <+: space ++ (u.lexeme ++ rest) := ⟨y, hcs.symm⟩
    rcases List.mem_cons.mp ht with rfl | ht
    · -- the blanks come in front of the first token
      obtain rfl : x = space :=
        Location.behind_append_inj hx ⟨_, rfl⟩ (hplace.symm.trans hu)
      rw [words_gap hspace, words_gap hspace, words_gap hgap]
    · obtain ⟨p, q, rfl, hq, hp⟩ := htiles.exists_split ht
      rw [List.append_assoc, List.append_assoc] at hp
      obtain rfl : x = space ++ (u.lexeme ++ p) :=
        Location.behind_append_inj hx ⟨q, by simp⟩ (hplace.symm.trans hp)
      obtain rfl : q = y := by simpa using hcs
      have hlater := ih ht rfl (by simpa using hp)
      have hfits' := hfits.before_gap hq hgap
      simp only [List.append_assoc]
      rw [words_gap hspace, words_gap hspace, lexeme, words_of_fits hfits, words_of_fits hfits',
        hlater]

theorem literal_eof_scanFrom (l : Location) (cs : List Char) :
    (scanFrom l cs).eof.literal = "" := by
  fun_induction scanFrom l cs with
  | case1 => rfl
  | case2 l c cs _ ih => exact ih
  | case3 l c cs _ lexeme later ih => exact ih

/-- Tokens with the same words differ in their places alone. -/
theorem scan_relocate_eq_of_words {s s' : String} (h : words s.toList = words s'.toList)
    (l : Location) : (scan s).relocate (fun _ => l) = (scan s').relocate fun _ => l := by
  have htokens (s : String) : (scan s).tokens.map (relocate fun _ => l) =
      (words s.toList).map fun w => ⟨w.1, String.ofList w.2, l⟩ := by
    rw [words, List.map_map]
    refine List.map_congr_left fun t _ => ?_
    simp [relocate, word]
  have heof (s : String) : (scan s).eof.relocate (fun _ => l) = ⟨.eof, "", l⟩ := by
    rw [relocate, kind_eof_scan, scan, literal_eof_scanFrom]
  rw [TokenStream.relocate, TokenStream.relocate, htokens, htokens, heof, heof, h]

end Token

/-! ## Parsing -/

theorem Diagnostic.complaint_comp_relocate (f : Location → Location) :
    complaint ∘ relocate f = complaint := by
  funext d
  cases d <;> rfl

theorem TokenStream.map_relocate (f : Location → Location) (stream : TokenStream) :
    (stream.relocate f).toList.map (fun t => (t.kind, t.literal)) =
      stream.toList.map fun t => (t.kind, t.literal) := by
  simp [relocate, toList, Token.relocate]

/-- **Layout between tokens does not matter.** Let a token of a text stand behind `before`, and
insert blanks in front of it. The text then has tokens of the same kinds and literals. Parsing it
gives the same program once every token of both programs is put at one place, and as many
diagnostics, which say the same behind the places that they start with. -/
theorem parse_insert_blanks (before gap after : String)
    (hgap : ∀ c ∈ gap.toList, c = ' ' ∨ c = '\t' ∨ c = '\n' ∨ c = '\r')
    {t : Token} (ht : t ∈ (Token.scan (before ++ after)).tokens)
    (hplace : t.location = .behind before.toList) :
    (Token.scan (before ++ gap ++ after)).toList.map (fun t => (t.kind, t.literal)) =
        (Token.scan (before ++ after)).toList.map (fun t => (t.kind, t.literal)) ∧
      (parse (before ++ gap ++ after)).program.relocate (fun _ => .start) =
        (parse (before ++ after)).program.relocate (fun _ => .start) ∧
      (parse (before ++ gap ++ after)).diagnostics.map Diagnostic.complaint =
        (parse (before ++ after)).diagnostics.map Diagnostic.complaint := by
  have hblank : ∀ c ∈ gap.toList, isBlank c = true := by
    intro c hc
    rcases hgap c hc with rfl | rfl | rfl | rfl <;> rfl
  have htiles := Token.tiles_scanFrom [] (before ++ after).toList
  have hwords := htiles.words_insert ht String.toList_append (by simpa using hplace) hblank
  have hwords' : words (before ++ gap ++ after).toList = words (before ++ after).toList := by
    simpa [String.toList_append] using hwords
  have hstream := Token.scan_relocate_eq_of_words hwords' .start
  have hparse := congrArg TokenStream.parse hstream
  rw [TokenStream.parse_relocate (Token.kind_eof_scan _),
    TokenStream.parse_relocate (Token.kind_eof_scan _)] at hparse
  obtain ⟨hprogram, hdiagnostics⟩ := Parsed.mk.inj hparse
  refine ⟨?_, hprogram, ?_⟩
  · rw [← TokenStream.map_relocate, hstream, TokenStream.map_relocate]
  · have hcomplaints := congrArg (List.map Diagnostic.complaint) hdiagnostics
    rwa [List.map_map, List.map_map, Diagnostic.complaint_comp_relocate] at hcomplaints

/-- Blanks between a point and a name that comes right after it, in a malformed text. -/
theorem parse_insert_blanks_point :
    (parse ("let a = 1." ++ "\r\n\t " ++ "b; (")).diagnostics.map Diagnostic.complaint =
      (parse ("let a = 1." ++ "b; (")).diagnostics.map Diagnostic.complaint :=
  (parse_insert_blanks "let a = 1." "\r\n\t " "b; (" (by simp)
    (t := ⟨.ident, "b", ⟨1, 11⟩⟩) (by decide +kernel) (by decide)).2.2

end Monkey
