import Monkey.Proofs.Arithmetic
import Monkey.Proofs.Evaluation.Renaming
import Monkey.Proofs.Evaluation.Unread

/-!
# Recursion up to the limit

A function that calls itself by its name, once for each number down to zero, needs one call more
than the number it is called with. The text `Countdown.source` defines such a function and calls
it, and `Countdown.runSource_depth_boundary` says that the limit is exact: with as many calls
allowed as are needed the run gives the number, and with fewer it is broken off.

The text is parsed to one tree, whatever the number is (`Countdown.parse_source`). Its tokens are
numbered, and each part of the tree is derived from the tokens that it covers. A call of the
function enters its body in a new scope, where the parameter is bound and the name of the function
is seen from outside. So a call with a successor is a call with the number before it, with one call
less allowed (`Countdown.applyValue_closure_succ`), and the induction is on the number
(`Countdown.applyValue_closure`).
-/

namespace Monkey

open Grammar
open Token (Kind)

/-! ## Derivations from words -/

section Words

variable {σ : Stratum} {t opening closing : Token} {ls rs ts : List Token} {l r e : Expr}
  {name operator : String}

theorem Ident.ofToken_of_word (h : t.word = (.ident, name.toList)) :
    Ident.ofToken t = ⟨t, name⟩ := by
  rw [Ident.ofToken, Token.literal_eq_of_word h]

/-- A primary expression is one of every stratum. -/
theorem Grammar.Expression.of_primary (h : Expression .primary ts e) : Expression σ ts e :=
  h.loosen (by cases σ <;> decide)

theorem Grammar.Expression.ident_of_word (h : t.word = (.ident, name.toList)) :
    Expression σ [t] (.ident ⟨t, name⟩) := by
  rw [← Ident.ofToken_of_word h]
  exact .of_primary (.ident (Token.kind_eq_of_word_mk h))

theorem Grammar.Expression.integer_of_word {k : Nat} (h : t.word = (.int, (toString k).toList))
    (hk : k ≤ 0x7fffffffffffffff) : Expression σ [t] (.integer t (Int64.ofInt k)) := by
  have hvalue : digitsValue t.literal.toList = k := by
    rw [Token.literal_eq_of_word h, Arithmetic.Numeral.digitsValue_toString]
  have hinteger := Expression.integer (Token.kind_eq_of_word_mk h) (hvalue ▸ hk)
  rw [hvalue] at hinteger
  exact .of_primary hinteger

theorem Grammar.Expression.binary_of_word (hl : Expression σ ls l)
    (h : t.word = (Kind.ofOperator operator).word) (hop : Kind.ofOperator operator ∈ σ.operators)
    (hr : Expression σ.tighter rs r) : Expression σ (ls ++ t :: rs) (.binary t operator l r) := by
  have hne : Kind.ofOperator operator ≠ .illegal :=
    ne_of_mem_of_not_mem hop (by cases σ <;> decide)
  have hbinary := Expression.binary hl (Token.kind_eq_of_word h ▸ hop) hr
  rwa [Token.literal_eq_of_operator hne h] at hbinary

/-- A call of a name with one argument. -/
theorem Grammar.Expression.call_of_word (h : t.word = (.ident, name.toList))
    (ho : opening.kind = .lparen) (he : Expression .equality ts e) (hc : closing.kind = .rparen) :
    Expression .postfixed (t :: opening :: (ts ++ [closing]))
      (.call opening (.ident ⟨t, name⟩) [e]) :=
  .call (.ident_of_word h) ho (.some (.one he)) hc

/-- A block of one expression. -/
theorem Grammar.Braced.of_expression (ho : opening.kind = .lbrace)
    (h : Expression .equality (t :: ts) e) (hc : closing.kind = .rbrace) :
    Braced (opening :: t :: (ts ++ [closing])) (.mk opening [.expr t e]) := by
  have hall : Statements .rbrace (t :: ts ++ []) [.expr t e] :=
    .cons (.unclosed h (by decide)) .nil
  rw [List.append_nil] at hall
  exact .mk ho hall hc

end Words

/-! ## What is seen from new scopes -/

namespace Machine

/-- A new scope changes nothing that is seen from a scope. -/
theorem get?_enclose (m : Machine) (outer scope : Scope) (name : String) :
    (m.enclose outer).2.store.get? scope name = m.store.get? scope name :=
  Store.find?_congr (fun frame _ => m.store.bindings_enclose outer frame) name

/-- From a new scope the same is seen as from the scope around it. -/
theorem get?_enclose_self (m : Machine) (outer : Scope) (name : String) :
    (m.enclose outer).2.store.get? (m.enclose outer).1 name = m.store.get? outer name := by
  rw [get?_enclose]
  show m.store.find? name (m.store.frames.size :: outer.chain) = _
  rw [Store.find?, Store.bindings_size]
  rfl

theorem get?_define_self (m : Machine) {scope : Scope} (h : scope.frame < m.store.frames.size)
    (name : String) (v : Value) : (m.define scope name v).store.get? scope name = some v := by
  show (m.store.set scope name v).find? name (scope.frame :: scope.outer) = _
  rw [Store.find?, Store.bindings_set, if_pos ⟨rfl, h⟩, Bindings.get?_set_self]

end Machine

/-! ## Evaluation on one machine -/

section Evaluation

variable {library : Library} {apply : Apply} {scope : Scope} {m m' : Machine} {v : Value}
  {name : String}

namespace Eval

section Bind

variable {α β : Type} {x y : Eval α} (k : α → Eval β)

theorem bind_congr (h : x m = y m') : (x >>= k) m = (y >>= k) m' := by
  show EStateM.bind x k m = EStateM.bind y k m'
  rw [EStateM.bind, EStateM.bind, h]

theorem bind_of_ok {a : α} (hx : x m = .ok a m') : (x >>= k) m = k a m' := by
  show EStateM.bind x k m = _
  rw [EStateM.bind, hx]

theorem bind_of_error {why : Abort} (hx : x m = .error why m') :
    (x >>= k) m = .error why m' := by
  show EStateM.bind x k m = _
  rw [EStateM.bind, hx]

end Bind

variable {x : Eval Value} (k : Value → Eval Value)

theorem unlessSignal_of_ok (hx : x m = .ok v m') (hv : v.isSignal = false) :
    unlessSignal x k m = k v m' := by
  rw [unlessSignal, bind_of_ok _ hx, hv]
  rfl

theorem unlessSignal_of_error {why : Abort} (hx : x m = .error why m') :
    unlessSignal x k m = .error why m' :=
  bind_of_error _ hx

theorem lookUp_of_get? (h : m.store.get? scope name = some v) :
    lookUp library scope name m = .ok v m := by
  show EStateM.Result.ok (m.lookUp library scope name) m = _
  rw [Machine.lookUp, h]

end Eval

/-- An expression that is the only statement gives its value. -/
theorem Stmt.evalAll_expr (token : Token) (x : Expr) (latest : Value) :
    Stmt.evalAll library apply [.expr token x] latest scope = x.eval library apply scope := by
  funext m
  rw [Stmt.evalAll, Stmt.eval, Evaluator.unlessSignal_apply]
  cases x.eval library apply scope m with
  | error why m' => rfl
  | ok v m' => exact ite_self _

theorem Block.eval_expr (token token' : Token) (x : Expr) :
    (Block.mk token [.expr token' x]).eval library apply scope = x.eval library apply scope := by
  rw [Block.eval, Stmt.evalAll_expr]

/-- An operation between a name and a literal. -/
theorem Expr.eval_binary_literal (h : m.store.get? scope name = some v) (hv : v.isSignal = false)
    (token t t' : Token) (operator : String) (n : Int64) :
    (Expr.binary token operator (.ident ⟨t, name⟩) (.integer t' n)).eval library apply scope m =
      .ok (Value.binary operator v (.integer n)) m := by
  rw [Expr.eval, Expr.eval, Eval.unlessSignal_of_ok _ (Eval.lookUp_of_get? h) hv]
  rfl

/-- A call of a named function with one argument. -/
theorem Expr.eval_call_name {f : Closure} {x : Expr}
    (hname : m.store.get? scope name = some (.function f))
    (hx : x.eval library apply scope m = .ok v m') (hv : v.isSignal = false) (token t : Token) :
    (Expr.call token (.ident ⟨t, name⟩) [x]).eval library apply scope m =
      apply (.function f) [v] m' := by
  have hargument : Expr.evalAll library apply [x] scope m = .ok (.ok [v]) m' := by
    rw [Expr.evalAll, Eval.bind_of_ok _ hx, hv]
    rfl
  rw [Expr.eval, Expr.eval, Eval.unlessSignal_of_ok _ (Eval.lookUp_of_get? hname) rfl,
    Eval.bind_of_ok _ hargument]

section OneParameter

variable {f : Closure} {parameter : Ident} (hf : f.parameters = [parameter])
include hf

/-- A call of a function with one parameter, before the limit is reached. -/
theorem applyValue_succ (r : Nat) (v : Value) (m : Machine) :
    applyValue library (r + 1) (.function f) [v] m =
      (f.body.eval library (applyValue library r) (m.enclose f.scope).1 >>= fun w =>
        pure w.unwrapReturned)
          ((m.enclose f.scope).2.define (m.enclose f.scope).1 parameter.name v) := by
  rw [applyValue.eq_def]
  simp only [hf]
  rfl

/-- A call of a function with one parameter at the limit. -/
theorem applyValue_zero (v : Value) (m : Machine) :
    applyValue library 0 (.function f) [v] m = .error .callDepthExceeded m := by
  rw [applyValue.eq_def]
  simp only [hf]
  rfl

end OneParameter

end Evaluation

namespace Countdown

/-! ## The text and its tree -/

/-- A function that calls itself once for each number down to zero. -/
def definition : String :=
  "let count = fn(n) \x7b if (n == 0) \x7b 0 \x7d else \x7b 1 + count(n - 1) \x7d \x7d; "

/-- The function, and a call of it. -/
def source (n : Nat) : String := definition ++ "count(" ++ toString n ++ ")"

/-- The words of the text. -/
def spelling (n : Nat) : List Word :=
  -- `let count = fn(n) {`, tokens 0 to 7
  [Kind.kwLet.word, (.ident, "count".toList), Kind.assign.word, Kind.kwFn.word, Kind.lparen.word,
    (.ident, "n".toList), Kind.rparen.word, Kind.lbrace.word,
    -- `if (n == 0) { 0 }`, tokens 8 to 16
    Kind.kwIf.word, Kind.lparen.word, (.ident, "n".toList), Kind.eq.word, (.int, "0".toList),
    Kind.rparen.word, Kind.lbrace.word, (.int, "0".toList), Kind.rbrace.word,
    -- `else { 1 + count(n - 1) }`, tokens 17 to 27
    Kind.kwElse.word, Kind.lbrace.word, (.int, "1".toList), Kind.plus.word,
    (.ident, "count".toList), Kind.lparen.word, (.ident, "n".toList), Kind.minus.word,
    (.int, "1".toList), Kind.rparen.word, Kind.rbrace.word,
    -- `}; count(n)`, tokens 28 to 33
    Kind.rbrace.word, Kind.semicolon.word, (.ident, "count".toList), Kind.lparen.word,
    (.int, (toString n).toList), Kind.rparen.word]

theorem words_source (n : Nat) : words (source n).toList = spelling n := by
  have hcount {cs : List Char} (hcs : Delimited cs) :
      words ('c' :: 'o' :: 'u' :: 'n' :: 't' :: cs) = (.ident, "count".toList) :: words cs :=
    words_name (w := "count".toList) ⟨by decide, List.all_eq_true.mp rfl, rfl⟩ hcs
  have hn {cs : List Char} (hcs : Delimited cs) :
      words ('n' :: cs) = (.ident, "n".toList) :: words cs :=
    words_name (w := "n".toList) ⟨by decide, List.all_eq_true.mp rfl, rfl⟩ hcs
  have hzero {cs : List Char} (hcs : Delimited cs) :
      words ('0' :: cs) = (.int, "0".toList) :: words cs :=
    words_digits (w := "0".toList) ⟨by decide, List.all_eq_true.mp rfl⟩ hcs
  have hone {cs : List Char} (hcs : Delimited cs) :
      words ('1' :: cs) = (.int, "1".toList) :: words cs :=
    words_digits (w := "1".toList) ⟨by decide, List.all_eq_true.mp rfl⟩ hcs
  have hdigits : words ((toString n).toList ++ [')']) = _ :=
    words_digits (Arithmetic.Numeral.isDigits_toString n) (by simp; decide)
  simp (disch := (simp; decide)) only [source, definition, String.toList_append,
    String.reduceToList, List.cons_append, List.nil_append, words_nil, words_space, words_let,
    words_fn, words_if, words_else, words_assign, words_eq, hcount, hn, hzero, hone, hdigits,
    words_symbol (c := '(') rfl, words_symbol (c := ')') rfl, words_symbol (c := '\x7b') rfl,
    words_symbol (c := '\x7d') rfl, words_symbol (c := '+') rfl, words_symbol (c := '-') rfl,
    words_symbol (c := ';') rfl]
  rfl

section Tree

variable (t : Nat → Token)

/-- The condition `n == 0`. -/
def isZero : Expr := .binary (t 11) "==" (.ident ⟨t 10, "n"⟩) (.integer (t 12) 0)

/-- The argument `n - 1`. -/
def previous : Expr := .binary (t 24) "-" (.ident ⟨t 23, "n"⟩) (.integer (t 25) 1)

/-- The sum `1 + count(n - 1)`. -/
def increment : Expr :=
  .binary (t 20) "+" (.integer (t 19) 1) (.call (t 22) (.ident ⟨t 21, "count"⟩) [previous t])

/-- The body of the function. -/
def body : Block :=
  .mk (t 7) [.expr (t 8) (.conditional (t 8) (isZero t)
    (.mk (t 14) [.expr (t 15) (.integer (t 15) 0)])
    (some (.mk (t 18) [.expr (t 19) (increment t)])))]

/-- The tree of the text, with the tokens of the text in order. -/
def program (n : Nat) : Program :=
  ⟨[.bind (t 0) ⟨t 1, "count"⟩ (.function (t 3) [⟨t 5, "n"⟩] (body t)),
    .expr (t 30) (.call (t 31) (.ident ⟨t 30, "count"⟩) [.integer (t 32) (Int64.ofInt n)])]⟩

/-- Some tokens in a row, from a number on. -/
def span (first size : Nat) : List Token := (List.range' first size).map t

end Tree

/-- Tokens have the words of the text, each one the word with its number. -/
def Numbers (t : Nat → Token) (n : Nat) : Prop :=
  ∀ i w, (spelling n)[i]? = some w → (t i).word = w

namespace Numbers

variable {t : Nat → Token} {n : Nat} (h : Numbers t n)
include h

theorem kind (i : Nat) {w : Word} (hw : (spelling n)[i]? = some w) : (t i).kind = w.1 :=
  congrArg Prod.fst (h i w hw)

theorem expression_isZero : Expression .equality (span t 10 3) (isZero t) := by
  have hzero : Expression .relational [t 12] _ :=
    .integer_of_word (k := 0) (h 12 _ rfl) (by decide)
  exact .binary_of_word (.ident_of_word (h 10 _ rfl)) (h 11 _ rfl) (by decide) hzero

theorem expression_previous : Expression .equality (span t 23 3) (previous t) := by
  have hone : Expression .multiplicative [t 25] _ :=
    .integer_of_word (k := 1) (h 25 _ rfl) (by decide)
  have hdifference : Expression .additive (span t 23 3) (previous t) :=
    .binary_of_word (.ident_of_word (h 23 _ rfl)) (h 24 _ rfl) (by decide) hone
  exact hdifference.loosen (by decide)

theorem expression_increment : Expression .equality (span t 19 8) (increment t) := by
  have hone : Expression .additive [t 19] _ := .integer_of_word (k := 1) (h 19 _ rfl) (by decide)
  have hcall : Expression .postfixed (span t 21 6) _ :=
    .call_of_word (h 21 _ rfl) (h.kind 22 rfl) h.expression_previous (h.kind 26 rfl)
  have hsum : Expression .additive (span t 19 8) (increment t) :=
    .binary_of_word hone (h 20 _ rfl) (by decide) (hcall.loosen (by decide))
  exact hsum.loosen (by decide)

theorem braced_body : Braced (span t 7 22) (body t) := by
  have hzero : Expression .equality [t 15] _ := .integer_of_word (k := 0) (h 15 _ rfl) (by decide)
  have hthen : Braced (span t 14 3) _ := .of_expression (h.kind 14 rfl) hzero (h.kind 16 rfl)
  have helse : Braced (span t 18 10) _ :=
    .of_expression (h.kind 18 rfl) h.expression_increment (h.kind 27 rfl)
  have hbranches : Expression .primary (span t 8 20) _ :=
    .alternative (h.kind 8 rfl) (h.kind 9 rfl) h.expression_isZero (h.kind 13 rfl) hthen
      (h.kind 17 rfl) helse
  exact .of_expression (h.kind 7 rfl) (.of_primary hbranches) (h.kind 28 rfl)

theorem derives_program (hn : n ≤ 0x7fffffffffffffff) : Derives (span t 0 34) (program t n) := by
  have hname : Ident.ofToken (t 1) = ⟨t 1, "count"⟩ := Ident.ofToken_of_word (h 1 _ rfl)
  have hparameter : Ident.ofToken (t 5) = ⟨t 5, "n"⟩ := Ident.ofToken_of_word (h 5 _ rfl)
  have hfunction : Expression .primary (span t 3 26)
      (.function (t 3) [Ident.ofToken (t 5)] (body t)) :=
    .function (h.kind 3 rfl) (h.kind 4 rfl) (.some (.one (h.kind 5 rfl))) (h.kind 6 rfl)
      h.braced_body
  have hinteger : Expression .equality [t 32] _ := .integer_of_word (h 32 _ rfl) hn
  have hcall : Expression .postfixed (span t 30 4) _ :=
    .call_of_word (h 30 _ rfl) (h.kind 31 rfl) hinteger (h.kind 33 rfl)
  have hbind : Statement (firstKind (span t 30 4) .eof) (span t 0 30) _ :=
    .bind (h.kind 0 rfl) (h.kind 1 rfl) (h.kind 2 rfl) (.of_primary hfunction)
      (.semicolon (h.kind 29 rfl))
  have hlast : Statements .eof (span t 30 4) _ :=
    .cons (.unclosed (hcall.loosen (by decide)) (by decide)) .nil
  rw [hname, hparameter] at hbind
  exact .cons hbind hlast

end Numbers

/-- The text is parsed to its tree, and nothing is wrong with it. -/
theorem parse_source {n : Nat} (hn : n ≤ 0x7fffffffffffffff) :
    ∃ t, parse (source n) = ⟨program t n, []⟩ := by
  have hwords : (Token.scan (source n)).tokens.map Token.word = spelling n := words_source n
  let t (i : Nat) : Token := (Token.scan (source n)).tokens[i]?.getD default
  have hnumbers : Numbers t n := by
    intro i w hw
    rw [← hwords, List.getElem?_map, Option.map_eq_some_iff] at hw
    obtain ⟨token, htoken, rfl⟩ := hw
    simp only [t, htoken, Option.getD_some]
  have hspan : span t 0 34 = (Token.scan (source n)).tokens := by
    have hlength : (Token.scan (source n)).tokens.length = 34 := by
      rw [← List.length_map, hwords]
      rfl
    refine List.ext_getElem (by simp [span, hlength]) fun i _ hi => ?_
    simp [span, t, hi]
  exact ⟨t, Grammar.parse_of_derives (Token.kind_eof_scan _) (hspan ▸ hnumbers.derives_program hn)⟩

/-! ## Numbers of 64 bits -/

/-- A number as a value. -/
def number (k : Nat) : Value := .integer (Int64.ofInt k)

section Arithmetic

variable {k : Nat}

theorem toInt_ofInt (hk : k ≤ 0x7fffffffffffffff) : (Int64.ofInt k).toInt = k :=
  Int64.toInt_ofInt_of_le (by omega) (by omega)

theorem ofInt_natCast (hk : k ≤ 0x7fffffffffffffff) : Value.ofInt k = number k := by
  rw [Arithmetic.ofInt_eq, if_pos ⟨by omega, by omega⟩, number]

theorem number_eq_zero (hk : k ≤ 0x7fffffffffffffff) :
    Value.binary "==" (number k) (.integer 0) = .boolean (k == 0) := by
  have hzero : Int64.ofInt k = 0 ↔ k = 0 := by
    rw [← Int64.toInt_inj, toInt_ofInt hk]
    exact Int.natCast_eq_zero
  show Value.boolean (Int64.ofInt k == 0) = _
  rw [beq_eq_beq.mpr hzero]

theorem number_succ_sub_one (hk : k + 1 ≤ 0x7fffffffffffffff) :
    Value.binary "-" (number (k + 1)) (.integer 1) = number k := by
  have hpred : ((k + 1 : Nat) : Int) - 1 = k := by omega
  show Value.ofInt ((Int64.ofInt (k + 1 : Nat)).toInt - 1) = _
  rw [toInt_ofInt hk, hpred, ofInt_natCast (by omega)]

theorem one_add_number (hk : k + 1 ≤ 0x7fffffffffffffff) :
    Value.binary "+" (.integer 1) (number k) = number (k + 1) := by
  have hsucc : 1 + (k : Int) = (k + 1 : Nat) := by omega
  show Value.ofInt (1 + (Int64.ofInt k).toInt) = _
  rw [toInt_ofInt (by omega), hsucc, ofInt_natCast hk]

end Arithmetic

/-! ## One call -/

/-- The function that the text makes, in a scope. -/
def closure (t : Nat → Token) (i : Nat) (scope : Scope) : Closure :=
  ⟨i, [⟨t 5, "n"⟩], body t, scope⟩

section Calls

variable {library : Library} {apply : Apply} {t : Nat → Token} {i k : Nat} {scope : Scope}
  {m : Machine} {f : Closure}

theorem eval_increment (hk : k + 1 ≤ 0x7fffffffffffffff)
    (hn : m.store.get? scope "n" = some (number (k + 1)))
    (hcount : m.store.get? scope "count" = some (.function f)) :
    (increment t).eval library apply scope m =
      Eval.unlessSignal (apply (.function f) [number k])
        (fun v => pure (Value.binary "+" (.integer 1) v)) m := by
  have hprevious : (previous t).eval library apply scope m = .ok (number k) m := by
    rw [previous, Expr.eval_binary_literal hn rfl, number_succ_sub_one hk]
  have hcall := Expr.eval_call_name hcount hprevious rfl (t 22) (t 21)
  rw [increment, Expr.eval, Expr.eval]
  exact Eval.bind_congr _ hcall

theorem eval_body_zero (hn : m.store.get? scope "n" = some (number 0)) :
    (body t).eval library apply scope m = .ok (number 0) (m.enclose scope).2 := by
  have hzero : (isZero t).eval library apply scope m = .ok (.boolean true) m := by
    rw [isZero, Expr.eval_binary_literal hn rfl, number_eq_zero (by decide)]
    rfl
  rw [body, Block.eval_expr, Expr.eval, Eval.unlessSignal_of_ok _ hzero rfl]
  rfl

theorem eval_body_succ (hk : k + 1 ≤ 0x7fffffffffffffff)
    (hn : m.store.get? scope "n" = some (number (k + 1)))
    (hcount : m.store.get? scope "count" = some (.function f)) :
    (body t).eval library apply scope m =
      Eval.unlessSignal (apply (.function f) [number k])
        (fun v => pure (Value.binary "+" (.integer 1) v)) (m.enclose scope).2 := by
  have hzero : (isZero t).eval library apply scope m = .ok (.boolean false) m := by
    rw [isZero, Expr.eval_binary_literal hn rfl, number_eq_zero hk]
    rfl
  -- the branch has a scope of its own, from which both names are seen
  have hn' := (m.get?_enclose_self scope "n").trans hn
  have hcount' := (m.get?_enclose_self scope "count").trans hcount
  rw [body, Block.eval_expr, Expr.eval, Eval.unlessSignal_of_ok _ hzero rfl,
    ← eval_increment (t := t) hk hn' hcount', ← Block.eval_expr (t 18) (t 19)]
  rfl

/-- The machine on which the body of a call starts. -/
def entered (m : Machine) (scope : Scope) (v : Value) : Machine :=
  (m.enclose scope).2.define (m.enclose scope).1 "n" v

theorem get?_entered_self (m : Machine) (scope : Scope) (v : Value) :
    (entered m scope v).store.get? (m.enclose scope).1 "n" = some v :=
  Machine.get?_define_self _ (by simp [Machine.enclose, Store.enclose]) "n" v

theorem get?_entered_count (m : Machine) (scope other : Scope) (v : Value) :
    (entered m scope v).store.get? other "count" = (m.enclose scope).2.store.get? other "count" :=
  (Machine.agreeBut_define _ _ "n" v).get? other (by decide)

/-- A call with zero gives zero. -/
theorem applyValue_closure_zero (r : Nat) (m : Machine) :
    ∃ m', applyValue library (r + 1) (.function (closure t i scope)) [number 0] m =
      .ok (number 0) m' := by
  rw [applyValue_succ (f := closure t i scope) rfl]
  exact ⟨_, Eval.bind_of_ok _ (eval_body_zero (get?_entered_self m scope (number 0)))⟩

/-- A call with a successor calls the function with the number before it, on a machine where the
name still stands for the function, and adds one. -/
theorem applyValue_closure_succ (library : Library) (hk : k + 1 ≤ 0x7fffffffffffffff)
    (hcount : m.store.get? scope "count" = some (.function (closure t i scope))) (r : Nat) :
    ∃ m₁ : Machine, m₁.store.get? scope "count" = some (.function (closure t i scope)) ∧
      applyValue library (r + 1) (.function (closure t i scope)) [number (k + 1)] m =
        (Eval.unlessSignal (applyValue library r (.function (closure t i scope)) [number k])
          (fun v => pure (Value.binary "+" (.integer 1) v)) >>= fun w =>
            pure w.unwrapReturned) m₁ := by
  have hn := get?_entered_self m scope (number (k + 1))
  have hkept (other : Scope) := get?_entered_count m scope other (number (k + 1))
  have hinner := (hkept (m.enclose scope).1).trans
    ((m.get?_enclose_self scope "count").trans hcount)
  have houter := (hkept scope).trans ((m.get?_enclose scope scope "count").trans hcount)
  refine ⟨((entered m scope (number (k + 1))).enclose (m.enclose scope).1).2, ?_, ?_⟩
  · rw [Machine.get?_enclose, houter]
  · rw [applyValue_succ (f := closure t i scope) rfl]
    exact Eval.bind_congr _ (eval_body_succ hk hn hinner)

/-! ## All calls -/

/-- With `r` calls allowed, a call with `k` gives `k` if there are more than `k` of them. -/
theorem applyValue_closure (library : Library) (hk : k ≤ 0x7fffffffffffffff)
    (hcount : m.store.get? scope "count" = some (.function (closure t i scope))) (r : Nat) :
    ∃ m', applyValue library r (.function (closure t i scope)) [number k] m =
      if k + 1 ≤ r then .ok (number k) m' else .error .callDepthExceeded m' := by
  -- the name is looked up again on the machine of each call, so the machine changes with `k`
  induction k generalizing r m with
  | zero =>
    cases r with
    | zero => exact ⟨m, applyValue_zero (f := closure t i scope) rfl _ m⟩
    | succ r => exact applyValue_closure_zero r m
  | succ k ih =>
    cases r with
    | zero => exact ⟨m, applyValue_zero (f := closure t i scope) rfl _ m⟩
    | succ r =>
      obtain ⟨m₁, hcount₁, hcall⟩ := applyValue_closure_succ library hk hcount r
      obtain ⟨m', hm'⟩ := ih (by omega) hcount₁ r
      refine ⟨m', ?_⟩
      rw [hcall]
      by_cases hr : k + 1 ≤ r
      · rw [if_pos hr] at hm'
        have hsum :=
          Eval.unlessSignal_of_ok (fun v => pure (Value.binary "+" (.integer 1) v)) hm' rfl
        rw [one_add_number hk] at hsum
        rw [if_pos (Nat.succ_le_succ hr), Eval.bind_of_ok _ hsum]
        rfl
      · rw [if_neg hr] at hm'
        rw [if_neg (by omega), Eval.bind_of_error _ (Eval.unlessSignal_of_error _ hm')]

end Calls

/-! ## The whole text -/

/-- The machine on which the text calls its function. -/
def defined (t : Nat → Token) (m : Machine) : Machine :=
  { m.root.2 with closures := m.closures + 1 }.define m.root.1 "count"
    (.function (closure t m.closures m.root.1))

theorem get?_defined (t : Nat → Token) (m : Machine) :
    (defined t m).store.get? m.root.1 "count" = some (.function (closure t m.closures m.root.1)) :=
  Machine.get?_define_self _ (by simp [Machine.root, Store.root]) "count" _

theorem eval_program (library : Library) (apply : Apply) (t : Nat → Token) (n : Nat)
    (m : Machine) :
    (program t n).eval library apply m.root.1 m.root.2 =
      (apply (.function (closure t m.closures m.root.1)) [number n] >>= fun v =>
        pure v.unwrapReturned) (defined t m) := by
  have hcall : (Expr.call (t 31) (.ident ⟨t 30, "count"⟩) [.integer (t 32) (Int64.ofInt n)]).eval
      library apply m.root.1 (defined t m) = apply _ [number n] (defined t m) :=
    Expr.eval_call_name (get?_defined t m) rfl rfl _ _
  have hall : Stmt.evalAll library apply (program t n).statements .null m.root.1 m.root.2 =
      apply (.function (closure t m.closures m.root.1)) [number n] (defined t m) := by
    rw [← hcall, ← Stmt.evalAll_expr (t 30) _ .null]
    rfl
  exact Eval.bind_congr _ hall

/-- **The limit is exact.** For every number of 64 bits that is not negative and every limit, the
text that defines `count` and calls it with the number runs in a new scope as follows: if the limit
is at least one more than the number, the run gives the number, and otherwise it is broken off and
names the limit. -/
theorem runSource_depth_boundary (library : Library) (d n : Nat) (hn : n ≤ 0x7fffffffffffffff)
    (m : Machine) :
    ∃ v : Int64, v.toInt = n ∧
      ((⟨library, d⟩ : Evaluator).runSource (source n) m.root.1 m.root.2).1 =
        .ran (if n + 1 ≤ d then .value (.integer v) else .depthExceeded d) := by
  obtain ⟨t, hparse⟩ := parse_source hn
  obtain ⟨m', hm'⟩ := applyValue_closure library hn (get?_defined t m) d
  have heval := eval_program library (applyValue library d) t n m
  refine ⟨Int64.ofInt n, toInt_ofInt hn, ?_⟩
  simp only [Evaluator.runSource, hparse, Evaluator.runProgram, Evaluator.finish, Evaluator.apply,
    List.isEmpty_nil, if_true]
  rw [heval]
  by_cases hd : n + 1 ≤ d
  · rw [if_pos hd] at hm'
    rw [if_pos hd, Eval.bind_of_ok _ hm']
    rfl
  · rw [if_neg hd] at hm'
    rw [if_neg hd, Eval.bind_of_error _ hm']

/-- Counting down from two takes three calls. -/
theorem runSource_depth_boundary_two :
    (∃ v : Int64, v.toInt = 2 ∧
      ((Evaluator.standard 3).runSource (source 2) Machine.new.root.1 Machine.new.root.2).1 =
        .ran (.value (.integer v))) ∧
    ((Evaluator.standard 2).runSource (source 2) Machine.new.root.1 Machine.new.root.2).1 =
      .ran (.depthExceeded 2) := by
  obtain ⟨v, hv, hthree⟩ := runSource_depth_boundary .standard 3 2 (by decide) .new
  obtain ⟨_, _, htwo⟩ := runSource_depth_boundary .standard 2 2 (by decide) .new
  exact ⟨⟨v, hv, hthree⟩, htwo⟩

end Countdown

end Monkey
