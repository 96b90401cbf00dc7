import Mathlib.Data.List.Forall2
import Mathlib.Data.Option.Basic
import Monkey.Library
import Monkey.Value.Operator

/-!
# Values that differ in their functions

Two values are alike if they are the same but for the functions in them, at any depth,
and those are related in a given way (`Value.Like`). A program cannot see more of a
function than its text and whether it is the same as another one. So operators and
standard native functions make alike values of alike values, and alike values have the
same text, as long as related functions have the same text and are told apart alike
(`Closure.Faithful`).
-/

namespace Monkey

/-- Related functions have the same text, and one is the same as another exactly if those
related to them are. -/
structure Closure.Faithful (C : Closure → Closure → Prop) : Prop where
  render {f g : Closure} : C f g → g.render = f.render
  number {f g f' g' : Closure} : C f g → C f' g' → (f.number = f'.number ↔ g.number = g'.number)

namespace Value

/-- Entries under the same key, with related keys and values. -/
inductive Entrywise (R : Value → Value → Prop) :
    HashKey × Value × Value → HashKey × Value × Value → Prop
  | mk (filed : HashKey) {k l v w : Value} (hkey : R k l) (hvalue : R v w) :
    Entrywise R (filed, k, v) (filed, l, w)

/-- Values that are the same but for their functions, which are related. -/
inductive Like (C : Closure → Closure → Prop) : Value → Value → Prop
  | integer (n : Int64) : Like C (integer n) (integer n)
  | float (x : Float) : Like C (float x) (float x)
  | boolean (b : Bool) : Like C (boolean b) (boolean b)
  | string (s : String) : Like C (string s) (string s)
  | null : Like C null null
  | returned {v w : Value} (h : Like C v w) : Like C (returned v) (returned w)
  | error (message : String) : Like C (error message) (error message)
  | function {f g : Closure} (h : C f g) : Like C (function f) (function g)
  | native (f : Native) : Like C (native f) (native f)
  | array {as bs : List Value} (h : List.Forall₂ (Like C) as bs) : Like C (array as) (array bs)
  | hash {as bs : List (HashKey × Value × Value)}
      (h : List.Forall₂ (Entrywise (Like C)) as bs) : Like C (hash as) (hash bs)

variable {C D : Closure → Closure → Prop}

mutual

theorem Like.mono (hCD : ∀ f g, C f g → D f g) : ∀ (v : Value) {w : Value}, Like C v w → Like D v w
  | .integer _, _, .integer n => .integer n
  | .float _, _, .float x => .float x
  | .boolean _, _, .boolean b => .boolean b
  | .string _, _, .string s => .string s
  | .null, _, .null => .null
  | .returned v, _, .returned h => .returned (Like.mono hCD v h)
  | .error _, _, .error message => .error message
  | .function _, _, .function h => .function (hCD _ _ h)
  | .native _, _, .native f => .native f
  | .array vs, _, .array h => .array (Like.monoAll hCD vs h)
  | .hash es, _, .hash h => .hash (Like.monoEntries hCD es h)
termination_by structural v => v

theorem Like.monoAll (hCD : ∀ f g, C f g → D f g) : ∀ (vs : List Value) {ws : List Value},
    List.Forall₂ (Like C) vs ws → List.Forall₂ (Like D) vs ws
  | [], _, .nil => .nil
  | v :: vs, _, .cons h hs => .cons (Like.mono hCD v h) (Like.monoAll hCD vs hs)
termination_by structural vs => vs

theorem Like.monoEntries (hCD : ∀ f g, C f g → D f g) :
    ∀ (es : List (HashKey × Value × Value)) {ds : List (HashKey × Value × Value)},
      List.Forall₂ (Entrywise (Like C)) es ds → List.Forall₂ (Entrywise (Like D)) es ds
  | [], _, .nil => .nil
  | (_, k, v) :: es, _, .cons (.mk filed hk hv) hs =>
    .cons (.mk filed (Like.mono hCD k hk) (Like.mono hCD v hv)) (Like.monoEntries hCD es hs)
termination_by structural es => es

end

/-! ## A value beside itself -/

/-- A function is in a value, at any depth. -/
inductive Holds (f : Closure) : Value → Prop
  | function : Holds f (function f)
  | returned {v : Value} (h : Holds f v) : Holds f (returned v)
  | array {v : Value} {vs : List Value} (hv : v ∈ vs) (h : Holds f v) : Holds f (array vs)
  | key {e : HashKey × Value × Value} {es : List (HashKey × Value × Value)} (he : e ∈ es)
      (h : Holds f e.2.1) : Holds f (hash es)
  | value {e : HashKey × Value × Value} {es : List (HashKey × Value × Value)} (he : e ∈ es)
      (h : Holds f e.2.2) : Holds f (hash es)

variable {Q : Closure → Prop}

mutual

theorem like_self : ∀ v : Value, (∀ f, v.Holds f → Q f) → Like (fun f g => g = f ∧ Q f) v v
  | .integer n, _ => .integer n
  | .float x, _ => .float x
  | .boolean b, _ => .boolean b
  | .string s, _ => .string s
  | .null, _ => .null
  | .returned v, h => .returned (like_self v fun f hf => h f (.returned hf))
  | .error message, _ => .error message
  | .function f, h => .function ⟨rfl, h f .function⟩
  | .native f, _ => .native f
  | .array vs, h => .array (like_self_all vs fun _ hv f hf => h f (.array hv hf))
  | .hash es, h =>
    .hash (like_self_entries es (fun _ he f hf => h f (.key he hf))
      fun _ he f hf => h f (.value he hf))
termination_by structural v => v

theorem like_self_all : ∀ vs : List Value, (∀ v ∈ vs, ∀ f, v.Holds f → Q f) →
    List.Forall₂ (Like fun f g => g = f ∧ Q f) vs vs
  | [], _ => .nil
  | v :: vs, h =>
    .cons (like_self v (h v List.mem_cons_self))
      (like_self_all vs fun w hw => h w (List.mem_cons_of_mem v hw))
termination_by structural vs => vs

theorem like_self_entries : ∀ es : List (HashKey × Value × Value),
    (∀ e ∈ es, ∀ f, e.2.1.Holds f → Q f) → (∀ e ∈ es, ∀ f, e.2.2.Holds f → Q f) →
      List.Forall₂ (Entrywise (Like fun f g => g = f ∧ Q f)) es es
  | [], _, _ => .nil
  | (filed, k, v) :: es, hk, hv =>
    .cons (.mk filed (like_self k (hk _ List.mem_cons_self))
        (like_self v (hv _ List.mem_cons_self)))
      (like_self_entries es (fun e he => hk e (List.mem_cons_of_mem _ he))
        fun e he => hv e (List.mem_cons_of_mem _ he))
termination_by structural es => es

end

mutual

/-- A value that is like another with the same functions is that value, and its functions are
as the relation says. -/
theorem Like.self : ∀ (v : Value) {w : Value}, Like (fun f g => g = f ∧ Q f) v w →
    w = v ∧ ∀ f, v.Holds f → Q f
  | .integer _, _, .integer _ | .float _, _, .float _ | .boolean _, _, .boolean _
  | .string _, _, .string _ | .null, _, .null | .error _, _, .error _
  | .native _, _, .native _ => ⟨rfl, fun _ hf => nomatch hf⟩
  | .returned v, _, .returned h => by
    obtain ⟨rfl, hv⟩ := Like.self v h
    refine ⟨rfl, fun f hf => ?_⟩
    cases hf with
    | returned hf => exact hv f hf
  | .function f, _, .function h => by
    obtain ⟨rfl, hf⟩ := h
    refine ⟨rfl, fun g hg => ?_⟩
    cases hg with
    | function => exact hf
  | .array vs, _, .array h => by
    obtain ⟨rfl, hvs⟩ := Like.selfAll vs h
    refine ⟨rfl, fun f hf => ?_⟩
    cases hf with
    | array hv hf => exact hvs _ hv f hf
  | .hash es, _, .hash h => by
    obtain ⟨rfl, hes⟩ := Like.selfEntries es h
    refine ⟨rfl, fun f hf => ?_⟩
    cases hf with
    | key he hf => exact (hes _ he).1 f hf
    | value he hf => exact (hes _ he).2 f hf
termination_by structural v => v

theorem Like.selfAll : ∀ (vs : List Value) {ws : List Value},
    List.Forall₂ (Like fun f g => g = f ∧ Q f) vs ws →
      ws = vs ∧ ∀ v ∈ vs, ∀ f, v.Holds f → Q f
  | [], _, .nil => ⟨rfl, fun _ hv => nomatch hv⟩
  | v :: vs, _, .cons h hs => by
    obtain ⟨rfl, hv⟩ := Like.self v h
    obtain ⟨rfl, hvs⟩ := Like.selfAll vs hs
    refine ⟨rfl, fun w hw => ?_⟩
    rcases List.mem_cons.mp hw with rfl | hw
    · exact hv
    · exact hvs w hw
termination_by structural vs => vs

theorem Like.selfEntries : ∀ (es : List (HashKey × Value × Value))
    {ds : List (HashKey × Value × Value)},
    List.Forall₂ (Entrywise (Like fun f g => g = f ∧ Q f)) es ds →
      ds = es ∧ ∀ e ∈ es, (∀ f, e.2.1.Holds f → Q f) ∧ ∀ f, e.2.2.Holds f → Q f
  | [], _, .nil => ⟨rfl, fun _ he => nomatch he⟩
  | (_, k, v) :: es, _, .cons (.mk filed hk hv) hs => by
    obtain ⟨rfl, hk⟩ := Like.self k hk
    obtain ⟨rfl, hv⟩ := Like.self v hv
    obtain ⟨rfl, hes⟩ := Like.selfEntries es hs
    refine ⟨rfl, fun e he => ?_⟩
    rcases List.mem_cons.mp he with rfl | he
    · exact ⟨hk, hv⟩
    · exact hes e he
termination_by structural es => es

end

theorem like_self_iff {v w : Value} :
    Like (fun f g => g = f ∧ Q f) v w ↔ w = v ∧ ∀ f, v.Holds f → Q f := by
  constructor
  · exact Like.self _
  · rintro ⟨rfl, h⟩
    exact like_self _ h

theorem like_self_option {x : Option Value} (h : ∀ v, x = some v → ∀ f, v.Holds f → Q f) :
    Option.Rel (Like fun f g => g = f ∧ Q f) x x := by
  cases x with
  | none => exact .none
  | some v => exact .some (like_self v (h v rfl))

/-! ## What can be seen of a value -/

namespace Like

variable {v w : Value}

theorem isSignal (h : Like C v w) : w.isSignal = v.isSignal := by
  cases h <;> rfl

theorem isTruthy (h : Like C v w) : w.isTruthy = v.isTruthy := by
  cases h <;> rfl

theorem kind (h : Like C v w) : w.kind = v.kind := by
  cases h <;> rfl

theorem hashKey? (h : Like C v w) : w.hashKey? = v.hashKey? := by
  cases h <;> rfl

theorem unwrapReturned (h : Like C v w) : Like C v.unwrapReturned w.unwrapReturned := by
  cases h with
  | returned h => exact h
  | integer n => exact .integer n
  | float x => exact .float x
  | boolean b => exact .boolean b
  | string s => exact .string s
  | null => exact .null
  | error message => exact .error message
  | function h => exact .function h
  | native f => exact .native f
  | array h => exact .array h
  | hash h => exact .hash h

end Like

mutual

/-- Alike values have the same text. -/
theorem Like.render (hC : Closure.Faithful C) : ∀ (v : Value) {w : Value},
    Like C v w → w.render = v.render
  | .integer _, _, .integer _ | .float _, _, .float _ | .boolean _, _, .boolean _
  | .string _, _, .string _ | .null, _, .null | .error _, _, .error _
  | .native _, _, .native _ => rfl
  | .returned v, _, .returned h => by
    have hinner := Like.render hC v h
    exact hinner
  | .function _, _, .function h => hC.render h
  | .array vs, _, .array h => by
    have hall := Like.renderAll hC vs h
    exact congrArg (fun texts => "[" ++ commaSeparated texts ++ "]") hall
  | .hash es, _, .hash h => by
    have hall := Like.renderEntries hC es h
    exact congrArg (fun texts => "\x7b" ++ commaSeparated texts ++ "\x7d") hall
termination_by structural v => v

theorem Like.renderAll (hC : Closure.Faithful C) : ∀ (vs : List Value) {ws : List Value},
    List.Forall₂ (Like C) vs ws → Value.renderAll ws = Value.renderAll vs
  | [], _, .nil => rfl
  | v :: vs, _, .cons h hs => by
    have hfirst := Like.render hC v h
    have hrest := Like.renderAll hC vs hs
    exact congrArg₂ List.cons hfirst hrest
termination_by structural vs => vs

theorem Like.renderEntries (hC : Closure.Faithful C) :
    ∀ (es : List (HashKey × Value × Value)) {ds : List (HashKey × Value × Value)},
      List.Forall₂ (Entrywise (Like C)) es ds → Value.renderEntries ds = Value.renderEntries es
  | [], _, .nil => rfl
  | (_, k, v) :: es, _, .cons (.mk filed hk hv) hs => by
    have hkey := Like.render hC k hk
    have hvalue := Like.render hC v hv
    have hrest := Like.renderEntries hC es hs
    exact congrArg₂ List.cons (congrArg₂ (fun a b => a ++ ": " ++ b) hkey hvalue) hrest
termination_by structural es => es

end

mutual

/-- Alike values are equal to each other in the same cases. -/
theorem Like.equal (hC : Closure.Faithful C) : ∀ (a b : Value) {a' b' : Value},
    Like C a a' → Like C b b' → a'.equal b' = a.equal b
  | .returned a, b, _, _, .returned ha, hb => by
    cases hb with
    | returned hb =>
      have hinner := Like.equal hC a _ ha hb
      exact hinner
    | _ => rfl
  | .function f, b, .function f', _, .function hf, hb => by
    cases hb with
    | @function g g' hg =>
      show (f'.number == g'.number) = (f.number == g.number)
      rw [Bool.beq_eq_decide_eq, Bool.beq_eq_decide_eq, decide_eq_decide]
      exact (hC.number hf hg).symm
    | _ => rfl
  | .array as, b, _, _, .array ha, hb => by
    cases hb with
    | array hb => exact Like.equalAll hC as _ ha hb
    | _ => rfl
  | .hash as, b, _, _, .hash ha, hb => by
    cases hb with
    | hash hb => exact Like.equalEntries hC as _ ha hb
    | _ => rfl
  | .integer _, _, _, _, .integer _, hb | .float _, _, _, _, .float _, hb
  | .boolean _, _, _, _, .boolean _, hb | .string _, _, _, _, .string _, hb
  | .null, _, _, _, .null, hb | .error _, _, _, _, .error _, hb
  | .native _, _, _, _, .native _, hb => by
    cases hb <;> rfl
termination_by structural a => a

theorem Like.equalAll (hC : Closure.Faithful C) : ∀ (as bs : List Value) {as' bs' : List Value},
    List.Forall₂ (Like C) as as' → List.Forall₂ (Like C) bs bs' →
      Value.equalAll as' bs' = Value.equalAll as bs
  | [], _, _, _, .nil, .nil => rfl
  | [], _, _, _, .nil, .cons _ _ => rfl
  | _ :: _, _, _, _, .cons _ _, .nil => rfl
  | a :: as, b :: bs, _, _, .cons ha has, .cons hb hbs => by
    have hfirst := Like.equal hC a b ha hb
    have hrest := Like.equalAll hC as bs has hbs
    exact congrArg₂ (· && ·) hfirst hrest
termination_by structural as => as

theorem Like.equalEntries (hC : Closure.Faithful C) :
    ∀ (as bs : List (HashKey × Value × Value)) {as' bs' : List (HashKey × Value × Value)},
      List.Forall₂ (Entrywise (Like C)) as as' → List.Forall₂ (Entrywise (Like C)) bs bs' →
        Value.equalEntries as' bs' = Value.equalEntries as bs
  | [], _, _, _, .nil, .nil => rfl
  | [], _, _, _, .nil, .cons _ _ => rfl
  | _ :: _, _, _, _, .cons _ _, .nil => rfl
  | (i, k, v) :: as, (j, l, w) :: bs, _, _, .cons (.mk _ hk hv) has, .cons (.mk _ hl hw) hbs => by
    have hkey := Like.equal hC k l hk hl
    have hvalue := Like.equal hC v w hv hw
    have hrest := Like.equalEntries hC as bs has hbs
    exact congrArg₂ (· && ·) (congrArg₂ (· && ·) (congrArg (i == j && ·) hkey) hvalue) hrest
termination_by structural as => as

end

/-! ## Operators -/

/-- A value in which there is nothing to compare. -/
inductive Plain : Value → Prop
  | integer (n : Int64) : Plain (integer n)
  | float (x : Float) : Plain (float x)
  | boolean (b : Bool) : Plain (boolean b)
  | string (s : String) : Plain (string s)
  | error (message : String) : Plain (error message)

theorem Plain.like {v : Value} (h : v.Plain) : Like C v v := by
  cases h with
  | integer n => exact .integer n
  | float x => exact .float x
  | boolean b => exact .boolean b
  | string s => exact .string s
  | error message => exact .error message

theorem plain_fault (f : Fault) : f.toValue.Plain := .error _

theorem plain_ofInt (z : Int) : (ofInt z).Plain := by
  unfold ofInt
  split
  · exact .integer _
  · exact plain_fault _

theorem plain_unary (operator : String) (v : Value) : (unary operator v).Plain := by
  unfold unary
  split
  · exact .boolean _
  · split
    · exact plain_ofInt _
    · exact .float _
    · exact plain_fault _
  · exact plain_fault _

theorem plain_integerBinary (operator : String) (a b : Int64) :
    (integerBinary operator a b).Plain := by
  unfold integerBinary
  split
  case h_4 =>
    split
    · exact plain_fault _
    · exact plain_ofInt _
  all_goals first | exact plain_ofInt _ | exact .boolean _ | exact plain_fault _

theorem plain_floatBinary (operator : String) (a b : Float) :
    (floatBinary operator a b).Plain := by
  unfold floatBinary
  split
  case h_4 =>
    split
    · exact plain_fault _
    · exact .float _
  all_goals first | exact .float _ | exact .boolean _ | exact plain_fault _

theorem plain_stringBinary (operator : String) (a b : String) :
    (stringBinary operator a b).Plain := by
  unfold stringBinary
  split
  · exact .string _
  · exact .boolean _
  · exact .boolean _
  · exact plain_fault _

theorem plain_otherBinary (operator : String) (a b : Value) :
    (otherBinary operator a b).Plain := by
  unfold otherBinary
  split
  · exact .boolean _
  · exact .boolean _
  · split
    · exact plain_fault _
    · exact plain_fault _

theorem plain_binary (operator : String) (a b : Value) : (binary operator a b).Plain := by
  unfold binary
  split
  · exact plain_integerBinary _ _ _
  · exact plain_floatBinary _ _ _
  · exact plain_stringBinary _ _ _
  · exact plain_otherBinary _ _ _

theorem like_unary {v w : Value} (h : Like C v w) (operator : String) :
    Like C (unary operator v) (unary operator w) := by
  have heq : unary operator w = unary operator v := by cases h <;> rfl
  rw [heq]
  exact (plain_unary operator v).like

theorem otherBinary_eq (hC : Closure.Faithful C) {a a' b b' : Value} (ha : Like C a a')
    (hb : Like C b b') (operator : String) :
    otherBinary operator a' b' = otherBinary operator a b := by
  unfold otherBinary
  rw [Like.equal hC a b ha hb, ha.kind, hb.kind]

theorem like_binary (hC : Closure.Faithful C) {a a' b b' : Value} (ha : Like C a a')
    (hb : Like C b b') (operator : String) :
    Like C (binary operator a b) (binary operator a' b') := by
  have hother := otherBinary_eq hC ha hb operator
  have heq : binary operator a' b' = binary operator a b := by
    cases ha with
    | integer n => cases hb <;> rfl
    | float x => cases hb <;> rfl
    | string s => cases hb <;> rfl
    | _ => exact hother
  rw [heq]
  exact (plain_binary operator a b).like

theorem forall₂_find? {R : Value → Value → Prop} {es ds : List (HashKey × Value × Value)}
    (h : List.Forall₂ (Entrywise R) es ds) (filed : HashKey) :
    Option.Rel R ((HashTable.find? filed es).map (·.2)) ((HashTable.find? filed ds).map (·.2)) := by
  induction h with
  | nil => exact .none
  | cons he _ ih =>
    cases he with
    | mk other hk hv =>
      unfold HashTable.find?
      split
      · exact .some hv
      · exact ih

theorem forall₂_insert {R : Value → Value → Prop} {es ds : List (HashKey × Value × Value)}
    (h : List.Forall₂ (Entrywise R) es ds) (filed : HashKey) {k l v w : Value} (hk : R k l)
    (hv : R v w) :
    List.Forall₂ (Entrywise R) (HashTable.insert filed (k, v) es)
      (HashTable.insert filed (l, w) ds) := by
  induction h with
  | nil => exact .cons (.mk filed hk hv) .nil
  | cons he hes ih =>
    cases he with
    | mk other hk' hv' =>
      unfold HashTable.insert
      split
      · exact .cons (.mk filed hk hv) (.cons (.mk other hk' hv') hes)
      split
      · exact .cons (.mk filed hk hv) hes
      · exact .cons (.mk other hk' hv') ih

theorem like_getD {x y : Option Value} (h : Option.Rel (Like C) x y) :
    Like C (x.getD .null) (y.getD .null) := by
  cases h with
  | some h => exact h
  | none => exact .null

theorem forall₂_getElem? {R : Value → Value → Prop} {as bs : List Value}
    (h : List.Forall₂ R as bs) (i : Nat) : Option.Rel R as[i]? bs[i]? := by
  induction h generalizing i with
  | nil => simp
  | cons hab _ ih =>
    cases i with
    | zero => exact .some hab
    | succ i => simpa using ih i

theorem like_index {t t' k k' : Value} (ht : Like C t t') (hk : Like C k k') :
    Like C (index t k) (index t' k') := by
  cases ht with
  | array h =>
    cases hk with
    | integer position =>
      show Like C (elementAt _ position) (elementAt _ position)
      unfold elementAt
      split
      · exact .null
      · exact like_getD (forall₂_getElem? h _)
    | _ => exact .error _
  | hash h =>
    show Like C (filedUnder _ k) (filedUnder _ k')
    unfold filedUnder
    rw [hk.hashKey?, hk.kind]
    cases k.hashKey? with
    | none => exact .error _
    | some filed => exact like_getD (forall₂_find? h filed)
  | _ => exact .error _

end Value

/-! ## Native functions -/

namespace Native

open Value (Like)

variable {C : Closure → Closure → Prop} {as bs : List Value}

theorem like_wrongArity (h : List.Forall₂ (Like C) as bs) (want : Nat) :
    Like C (Fault.wrongArity want as.length).toValue (Fault.wrongArity want bs.length).toValue := by
  rw [h.length_eq]
  exact .error _

theorem like_length (h : List.Forall₂ (Like C) as bs) : Like C (length as) (length bs) := by
  have harity := like_wrongArity h 1
  rcases h with _ | ⟨hv, _ | ⟨_, _⟩⟩
  · exact harity
  · cases hv with
    | string s => exact .integer _
    | array h =>
      rw [length, length, h.length_eq]
      exact .integer _
    | hash h =>
      rw [length, length, h.length_eq]
      exact .integer _
    | _ => exact .error _
  · simpa [length] using harity

/-- What is made of the elements of an array is alike if it is so for alike elements. -/
theorem like_onArray (function : Native) {f : List Value → Value}
    (hf : ∀ {vs ws}, List.Forall₂ (Like C) vs ws → Like C (f vs) (f ws))
    (h : List.Forall₂ (Like C) as bs) : Like C (onArray function f as) (onArray function f bs) := by
  have harity := like_wrongArity h 1
  rcases h with _ | ⟨hv, _ | ⟨_, _⟩⟩
  · exact harity
  · cases hv with
    | array h => exact hf h
    | _ => exact .error _
  · simpa [onArray] using harity

theorem like_tail (h : List.Forall₂ (Like C) as bs) : Like C (tail as) (tail bs) := by
  cases h with
  | nil => exact .null
  | cons _ h => exact .array h

theorem like_append (h : List.Forall₂ (Like C) as bs) : Like C (append as) (append bs) := by
  have harity := like_wrongArity h 2
  rcases h with _ | ⟨ha, _ | ⟨hv, _ | ⟨_, _⟩⟩⟩
  · exact harity
  · simpa [append] using harity
  · cases ha with
    | array h => exact .array (List.rel_append h (.cons hv .nil))
    | _ => exact .error _
  · simpa [append] using harity

theorem forall₂_head? {R : Value → Value → Prop} (h : List.Forall₂ R as bs) :
    Option.Rel R as.head? bs.head? := by
  cases h with
  | nil => exact .none
  | cons h _ => exact .some h

theorem forall₂_getLast? {R : Value → Value → Prop} (h : List.Forall₂ R as bs) :
    Option.Rel R as.getLast? bs.getLast? := by
  rw [List.getLast?_eq_head?_reverse, List.getLast?_eq_head?_reverse]
  exact forall₂_head? (List.rel_reverse h)

theorem lines_eq (hC : Closure.Faithful C) (h : List.Forall₂ (Like C) as bs) :
    lines bs = lines as := by
  have hmap : bs.map (fun v => v.render ++ "\n") = as.map (fun v => v.render ++ "\n") := by
    induction h with
    | nil => rfl
    | cons h _ ih => rw [List.map_cons, List.map_cons, Like.render hC _ h, ih]
  rw [lines, lines, hmap]

end Native

/-- What a standard native function prints on alike arguments is the same, and what it gives
is alike. -/
theorem Library.like_call {C : Closure → Closure → Prop} (hC : Closure.Faithful C) (f : Native)
    {as bs : List Value} (h : List.Forall₂ (Value.Like C) as bs) :
    (standard.call f bs).printed = (standard.call f as).printed ∧
      Value.Like C (standard.call f as).value (standard.call f bs).value := by
  cases f with
  | len => exact ⟨rfl, Native.like_length h⟩
  | puts => exact ⟨Native.lines_eq hC h, .null⟩
  | first =>
    exact ⟨rfl, Native.like_onArray _ (fun h => Value.like_getD (Native.forall₂_head? h)) h⟩
  | last =>
    exact ⟨rfl, Native.like_onArray _ (fun h => Value.like_getD (Native.forall₂_getLast? h)) h⟩
  | rest => exact ⟨rfl, Native.like_onArray _ Native.like_tail h⟩
  | push => exact ⟨rfl, Native.like_append h⟩
  | host name => exact ⟨rfl, .error _⟩

end Monkey
