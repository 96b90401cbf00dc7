import Monkey.Proofs.Parser.Lookahead
import Monkey.Proofs.Parser.Relocation
import Monkey.Proofs.Scanning.Tiling

/-!
# Texts one after the other

A text whose last token is a semicolon can be read on its own. A newline after it ends its last
lexeme, so its tokens come first, and what follows is scanned as if it stood alone, some lines
further down (`Token.scan_append_newline`). Its statements are read first, and reading is back at
the start where its tokens end (`Parser.Turns.append`): a malformed statement is skipped up
to a semicolon, and there is one before the tokens end. Only a block that is not closed could
take tokens of what follows, and there is none if nothing is reported, or without braces.
-/

namespace Monkey

open Token (Kind Terminated)

/-! ## Scanning -/

/-- A newline ends every lexeme but a string that is never closed. -/
theorem Fits.append_newline {kind : Kind} {w rest : List Char} (h : Fits kind w rest)
    (hclosed : rest = [] → kind ≠ .illegal) (cs : List Char) :
    Fits kind w (rest ++ '\n' :: cs) :=
  before_blank (q := []) (by simpa using h) (by simpa using hclosed) rfl cs

namespace Token

/-- A lexeme and what is scanned behind it, if something is left. -/
theorem scanFrom_of_fits {kind : Kind} {w rest : List Char} (h : Fits kind w rest)
    (hrest : rest ≠ []) (before : List Char) :
    scanFrom (.behind before) (kind.lexeme w ++ rest) =
      ⟨⟨kind, String.ofList w, .behind before⟩ ::
          (scanFrom (.behind (before ++ kind.lexeme w)) rest).tokens,
        (scanFrom (.behind (before ++ kind.lexeme w)) rest).eof⟩ := by
  obtain ⟨c, cs, extent, htext, hblank, hread⟩ := Lexeme.read_of_fits h
  have hextent := (Lexeme.starts_read hblank cs).extent
  rw [hread] at hextent
  have hextent' : extent = kind.lexeme w := hextent.resolve_right hrest
  rw [htext, scanFrom, if_neg (by simp [hblank]), hread, Location.behind_append, hextent']

/-- What follows a text and a newline is scanned from the line after it. -/
theorem Tiles.scanFrom_append {before cs : List Char} {ts : List Token} (h : Tiles before cs ts)
    (hlast : ∀ t ∈ ts.getLast?, t.kind ≠ .illegal) (ds : List Char) :
    scanFrom (.behind before) (cs ++ '\n' :: ds) =
      ⟨ts ++ (scanFrom (.behind (before ++ cs ++ ['\n'])) ds).tokens,
        (scanFrom (.behind (before ++ cs ++ ['\n'])) ds).eof⟩ := by
  induction h with
  | @blank before gap hgap =>
    have hnewline : isBlank '\n' = true := rfl
    rw [scanFrom_gap hgap, scanFrom, if_pos hnewline, Location.behind_append _ ['\n'],
      Location.behind_append]
    rfl
  | @token before gap rest t ts hgap hplace hfits htiles ih =>
    have hclosed : rest = [] → t.kind ≠ .illegal := by
      rintro rfl
      -- nothing comes after the token, so it is the last one
      cases ts with
      | nil => exact hlast t (by simp)
      | cons u us => exact absurd htiles.eq_tokens (by simp [scanFrom])
    have hlast' : ∀ u ∈ ts.getLast?, u.kind ≠ .illegal := by
      intro u hu
      refine hlast u ?_
      cases ts with
      | nil => cases hu
      | cons v vs => simpa using hu
    have hfits' := hfits.append_newline hclosed ds
    rw [List.append_assoc, scanFrom_gap hgap, ← Location.behind_append, List.append_assoc, lexeme,
      scanFrom_of_fits hfits' (by simp), ← lexeme, ih hlast', ← hplace, String.ofList_toList]
    simp only [List.append_assoc, List.cons_append]

/-- What follows a text and a newline is scanned as if it stood alone, below the text. -/
theorem scan_append_newline (s₁ s₂ : String)
    (hlast : ∀ t ∈ (scan s₁).tokens.getLast?, t.kind ≠ .illegal) :
    scan (s₁ ++ "\n" ++ s₂) =
      ⟨(scan s₁).tokens ++ ((scan s₂).down (1 + s₁.toList.count '\n')).tokens,
        ((scan s₂).down (1 + s₁.toList.count '\n')).eof⟩ := by
  have htiles : Tiles [] s₁.toList (scan s₁).tokens := tiles_scanFrom [] s₁.toList
  have htext : (s₁ ++ "\n" ++ s₂).toList = s₁.toList ++ '\n' :: s₂.toList := by
    simp [String.toList_append]
  have hplace : Location.behind ([] ++ s₁.toList ++ ['\n']) =
      Location.start.down (1 + s₁.toList.count '\n') := by
    simp [Location.behind, Location.down, Location.start, lastLine, Nat.add_comm]
  have hscan := htiles.scanFrom_append hlast s₂.toList
  rw [hplace, scanFrom_down] at hscan
  rw [scan, htext]
  exact hscan

end Token

/-! ## Parsing -/

namespace Parser

/-- The loop over statements, turn by turn: a statement that is read is kept, and a malformed one
is skipped. -/
inductive Turns : State → List Stmt → State → Prop
  | ends {s : State} (hend : s.atEnd = true) : Turns s [] s
  | turn {s s' : State} {r : Option Stmt × State} {others : List Stmt} (hend : s.atEnd = false)
      (hturn : Call.statement.Ends s r) (hothers : Turns (afterTurn r) others s') :
      Turns s (r.1.toList ++ others) s'

namespace Turns

variable {s s' : State} {body : List Stmt}

theorem exists_turns (heof : s.eof.kind = .eof) : ∃ body s', Turns s body s' := by
  induction hlength : s.ahead.length using Nat.strongRecOn generalizing s with
  | ind length ih =>
    subst hlength
    by_cases hend : s.atEnd = true
    · exact ⟨[], s, .ends hend⟩
    have hend' := Bool.eq_false_iff.mpr hend
    have hturn := Call.statement.ends_bounded heof
    have hpast := beyond_afterTurn hend' (hturn.reaches heof)
    have hpos := List.length_pos_iff.mpr (State.ahead_ne_nil_of_atEnd heof hend')
    have hlength := hpast.length
    obtain ⟨others, s', hothers⟩ := ih _ (by omega) (hpast.eof ▸ heof) rfl
    exact ⟨_, s', .turn hend' hturn hothers⟩

theorem toEnds (h : Turns s body s') : Call.statements.Ends s (some body, s') := by
  induction h with
  | ends hend => exact ⟨1, fun z => by rw [Call.unroll, Call.exec_body_statements, if_pos hend]⟩
  | @turn s s' r others hend hturn hothers ih =>
    obtain ⟨n, hn⟩ := hturn
    obtain ⟨m, hm⟩ := ih
    refine ⟨n + m + 1, fun z => ?_⟩
    have hstatement : exec (Call.unroll z (n + m) _ .statement) s = r := by rw [Call.unroll_add, hn]
    have hrest : exec (Call.unroll z (n + m) _ .statements) (afterTurn r) = (some others, s') := by
      rw [Nat.add_comm, Call.unroll_add, hm]
    rw [Call.unroll, Call.exec_body_statements, if_neg (by simp [hend]), hstatement]
    obtain ⟨_ | first, s₁⟩ := r
    · exact hrest
    · show exec (_ >>= _) s₁.advance = _
      rw [exec_bind, show exec _ s₁.advance = _ from hrest]
      rfl

/-- The loop over statements does nothing but its turns. -/
theorem of_ends (heof : s.eof.kind = .eof) (h : Call.statements.Ends s (some body, s')) :
    Turns s body s' := by
  obtain ⟨body', s'', hturns⟩ := exists_turns heof
  obtain ⟨hbody, rfl⟩ := Prod.mk.inj (h.unique hturns.toEnds)
  obtain rfl := Option.some.inj hbody
  exact hturns

end Turns

/-- Outside of blocks, only the end token ends the statements. -/
theorem State.ahead_eq_nil_of_atEnd {s : State} (hkinds : ∀ t ∈ s.ahead, t.kind ≠ .eof)
    (hblocks : s.openBlocks = 0) (hend : s.atEnd = true) : s.ahead = [] := by
  rcases hahead : s.ahead with _ | ⟨t, ts⟩
  · rfl
  have hkind := hkinds t (by rw [hahead]; exact List.mem_cons_self ..)
  simp [State.atEnd, State.current, hahead, hblocks, hkind] at hend

/-- After a turn that has not come to the end of the tokens, the next one starts in the same way
when more tokens follow. -/
theorem afterTurn_extend {α : Type} {s₁ : State} {r : Option α} {rest : List Token} {eof : Token}
    (h : Terminated s₁.ahead) :
    afterTurn (r, s₁.extend rest eof) = (afterTurn (r, s₁)).extend rest eof := by
  cases r with
  | none => exact recover_extend h
  | some a => exact State.advance_extend h.ne_nil

theorem reaches_afterTurn {α : Type} (r : Option α) (s : State) : s.Reaches (afterTurn (r, s)) := by
  cases r with
  | none => exact reaches_recover s
  | some a => exact s.reaches_advance

/-- A turn does not come to the end of the tokens if it reports nothing, or without braces. -/
theorem Call.Ends.extend_turn {s s₁ : State} {r : Option Stmt} (heof : s.eof.kind = .eof)
    (hts : Terminated s.ahead) (h : Call.statement.Ends s (r, s₁))
    (hclean : s₁.reported.length = s.reported.length ∨ ∀ t ∈ s.ahead, t.kind ≠ .lbrace)
    (rest : List Token) {eof : Token} (heof' : eof.kind = .eof) :
    Terminated s₁.ahead ∧ Call.statement.Ends (s.extend rest eof) (r, s₁.extend rest eof) := by
  have hreaches : s.Reaches s₁ := h.reaches heof
  rcases h.extend heof hts rest heof' with ⟨hne, hends⟩ | ⟨-, rfl, t, ht, hbrace⟩
  · exact ⟨hts.suffix hreaches.ahead hne, hends⟩
  · rcases hclean with hsame | hbraces
    · exact absurd hsame (Nat.ne_of_gt (h.reports heof))
    · exact absurd hbrace (hbraces t ht)

/-- Statements are read up to the end of tokens that end with a semicolon, and then those that
follow are. -/
theorem Turns.append {s s₁ s₂ : State} {first second : List Stmt} {rest : List Token} {eof : Token}
    (heof : s.eof.kind = .eof) (heof' : eof.kind = .eof) (hkinds : ∀ t ∈ s.ahead, t.kind ≠ .eof)
    (hts : s.ahead = [] ∨ Terminated s.ahead) (hblocks : s.openBlocks = 0)
    (hclean : s₁.reported.length = s.reported.length ∨ ∀ t ∈ s.ahead, t.kind ≠ .lbrace)
    (h₁ : Turns s first s₁) (h₂ : Turns ⟨rest, eof, 0, s₁.reported⟩ second s₂) :
    Turns (s.extend rest eof) (first ++ second) s₂ := by
  induction h₁ with
  | @ends s hend =>
    -- reading is back at the start
    rw [State.extend, State.ahead_eq_nil_of_atEnd hkinds hblocks hend, hblocks]
    exact h₂
  | @turn s s₁ r others hend hturn hothers ih =>
    obtain ⟨r, sr⟩ := r
    have hts := hts.resolve_left (State.ahead_ne_nil_of_atEnd heof hend)
    have hreaches : s.Reaches sr := hturn.reaches heof
    have hafter := reaches_afterTurn r sr
    have heof₁ : (afterTurn (r, sr)).eof.kind = .eof := (hreaches.trans hafter).eof ▸ heof
    have hreported := hreaches.length_reported_le
    have hreported₁ := hafter.length_reported_le
    have hreported₂ : _ ≤ s₁.reported.length := (hothers.toEnds.reaches heof₁).length_reported_le
    obtain ⟨htsr, hturn'⟩ :=
      hturn.extend_turn heof hts (hclean.imp_left fun _ => by omega) rest heof'
    have hothers' : Turns ((afterTurn (r, sr)).extend rest eof) (others ++ second) s₂ := by
      have hahead := hafter.ahead.trans hreaches.ahead
      refine ih heof₁ (fun t ht => hkinds t (hahead.subset ht)) ?_ ?_ ?_ h₂
      · by_cases hnil : (afterTurn (r, sr)).ahead = []
        · exact Or.inl hnil
        · exact Or.inr (hts.suffix hahead hnil)
      · rw [(hreaches.trans hafter).openBlocks, hblocks]
      · exact hclean.imp (fun _ => by omega) fun hbraces t ht => hbraces t (hahead.subset ht)
    rw [List.append_assoc]
    rw [← afterTurn_extend htsr] at hothers'
    exact .turn (r := (r, sr.extend rest eof)) (by rw [State.atEnd_extend hts.ne_nil, hend]) hturn'
      hothers'

end Parser

open Monkey.Parser

/-- What parsing gives is what the turns from the first token on give. -/
theorem TokenStream.parse_of_turns {stream : TokenStream} {body : List Stmt} {s : State}
    (heof : stream.eof.kind = .eof) (h : Turns (.ofStream stream) body s) :
    stream.parse = ⟨⟨body⟩, s.reported.reverse⟩ :=
  parse_of_ends heof h.toEnds

/-- Tokens that end with a semicolon are parsed on their own, and what follows them is parsed as
if it stood alone, some lines further down. -/
theorem TokenStream.parse_append {first second : TokenStream} (k : Nat)
    (heof : first.eof.kind = .eof) (heof' : second.eof.kind = .eof)
    (hkinds : ∀ t ∈ first.tokens, t.kind ≠ .eof)
    (hlast : ∀ t ∈ first.tokens.getLast?, t.kind = .semicolon)
    (hclean : first.parse.diagnostics = [] ∨ ∀ t ∈ first.tokens, t.kind ≠ .lbrace) :
    (TokenStream.mk (first.tokens ++ (second.down k).tokens) (second.down k).eof).parse =
      ⟨⟨first.parse.program.statements ++ second.parse.program.statements.map (Stmt.down k)⟩,
        first.parse.diagnostics ++ second.parse.diagnostics.map (Diagnostic.down k)⟩ := by
  obtain ⟨body₁, s₁, h₁⟩ := Turns.exists_turns (s := .ofStream first) heof
  obtain ⟨body₂, s₂, h₂⟩ := Turns.exists_turns (s := .ofStream second) heof'
  have hparse₁ := parse_of_turns heof h₁
  have hts : first.tokens = [] ∨ Terminated first.tokens := by
    cases htoken : first.tokens.getLast? with
    | none => exact Or.inl (List.getLast?_eq_none_iff.mp htoken)
    | some t => exact Or.inr ⟨t, htoken, hlast t htoken⟩
  have hclean' : s₁.reported.length = (State.ofStream first).reported.length ∨
      ∀ t ∈ first.tokens, t.kind ≠ .lbrace := by
    refine hclean.imp_left fun hnone => ?_
    rw [hparse₁, List.reverse_eq_nil_iff] at hnone
    rw [hnone]
    rfl
  have hdown : Turns ⟨(second.down k).tokens, (second.down k).eof, 0, s₁.reported⟩
      (Stmt.downAll k body₂) (s₂.down k s₁.reported) :=
    Turns.of_ends heof' (h₂.toEnds.down heof' k s₁.reported)
  have heof'' : (second.down k).eof.kind = .eof := heof'
  have hboth := Turns.append (s := .ofStream first) heof heof'' hkinds hts rfl hclean' h₁ hdown
  have hparse : (TokenStream.mk (first.tokens ++ (second.down k).tokens)
      (second.down k).eof).parse = _ := parse_of_turns heof'' hboth
  rw [hparse, hparse₁, parse_of_turns heof' h₂]
  simp [State.down, Stmt.downAll_eq_map]

/-- A text that ends with a semicolon is parsed on its own, and so is what follows the newline
after it. -/
theorem parse_append_eq (s₁ s₂ : String)
    (hlast : ∀ t ∈ (Token.scan s₁).tokens.getLast?, t.kind = .semicolon)
    (hclean : (parse s₁).diagnostics = [] ∨ ∀ t ∈ (Token.scan s₁).tokens, t.kind ≠ .lbrace) :
    parse (s₁ ++ "\n" ++ s₂) =
      let k := 1 + s₁.toList.count '\n'
      ⟨⟨(parse s₁).program.statements ++ (parse s₂).program.statements.map (Stmt.down k)⟩,
        (parse s₁).diagnostics ++ (parse s₂).diagnostics.map (Diagnostic.down k)⟩ := by
  have hscan := Token.scan_append_newline s₁ s₂ fun t ht => by rw [hlast t ht]; decide
  have hparse := TokenStream.parse_append (1 + s₁.toList.count '\n') (Token.kind_eof_scan s₁)
    (Token.kind_eof_scan s₂) (fun _ => Token.kind_ne_eof_of_mem_scan) hlast hclean
  rw [← hscan] at hparse
  exact hparse

/-- **Texts are parsed one after the other.** Let a text have no tokens or end with a semicolon,
and be parsed without diagnostics or have no braces. The program of the text, a newline and any
other text is the statements of the one followed by the statements of the other, and so are the
diagnostics. What comes from the second text is as many lines further down as the first text and
the newline take. -/
theorem parse_append_newline (s₁ s₂ : String)
    (hlast : ∀ t ∈ (Token.scan s₁).tokens.getLast?, t.kind = .semicolon)
    (hclean : (parse s₁).diagnostics = [] ∨
      ∀ t ∈ (Token.scan s₁).tokens, t.kind ≠ .lbrace ∧ t.kind ≠ .rbrace) :
    let k := 1 + s₁.toList.count '\n'
    (parse (s₁ ++ "\n" ++ s₂)).program.statements =
        (parse s₁).program.statements ++ (parse s₂).program.statements.map (Stmt.down k) ∧
      (parse (s₁ ++ "\n" ++ s₂)).diagnostics =
        (parse s₁).diagnostics ++ (parse s₂).diagnostics.map (Diagnostic.down k) := by
  intro k
  have hbraces := hclean.imp_right fun h t ht => (h t ht).1
  rw [parse_append_eq s₁ s₂ hlast hbraces]
  exact ⟨rfl, rfl⟩

/-- Diagnostics of a malformed text come before those of the next, which are a line further down. -/
theorem parse_append_newline_malformed :
    (parse ("let = 1; x y;" ++ "\n" ++ "1 +")).diagnostics =
      (parse "let = 1; x y;").diagnostics ++ (parse "1 +").diagnostics.map (Diagnostic.down 1) :=
  (parse_append_newline "let = 1; x y;" "1 +" (by decide +kernel) (Or.inr (by decide +kernel))).2

end Monkey
