import Monkey.Proofs.Evaluation.Reference

/-!
# Signals agree with exceptions

Evaluation hands signals on as values. It does what the reference does with
exceptions: `Agrees` says of two steps that they end alike and change a machine
alike, where a signal is the value that stands for what was raised. It holds of
the primitive steps, and `Agrees.bind` and `Agrees.collect` carry it over a check for
a signal. So it holds of every expression, statement and block (`agrees_expr` and
its companions) if it holds of calls, and of calls by induction on how many may be
nested (`agrees_apply`).

The store of the reference holds data only. A machine can be read as its memory
exactly if no signal is stored on it (`Machine.Clean`).
-/

namespace Monkey

/-! ## Mapping a store -/

namespace Bindings

variable {α β : Type} (f : α → β)

theorem get?_map (name : String) (b : Bindings α) :
    get? name (b.map fun p => (p.1, f p.2)) = (get? name b).map f := by
  induction b with
  | nil => rfl
  | cons p rest ih =>
    obtain ⟨other, value⟩ := p
    by_cases h : other = name <;> simp [get?, h, ih]

theorem set_map (name : String) (value : α) (b : Bindings α) :
    set name (f value) (b.map fun p => (p.1, f p.2)) =
      (set name value b).map fun p => (p.1, f p.2) := by
  induction b with
  | nil => rfl
  | cons p rest ih =>
    obtain ⟨other, old⟩ := p
    by_cases h : other = name <;> simp [set, h, ih]

end Bindings

namespace Store

variable {α β : Type} (f : α → β)

/-- The same store with other values in the place of its own. -/
def map (s : Store α) : Store β :=
  ⟨s.frames.map fun b => b.map fun p => (p.1, f p.2)⟩

theorem bindings_map (s : Store α) (frame : Nat) :
    (s.map f).bindings frame = (s.bindings frame).map fun p => (p.1, f p.2) := by
  unfold map bindings
  cases h : s.frames[frame]? <;> simp [h]

theorem find?_map (s : Store α) (name : String) (frames : List Nat) :
    (s.map f).find? name frames = (s.find? name frames).map f := by
  induction frames with
  | nil => rfl
  | cons frame outer ih =>
    unfold find?
    rw [bindings_map, Bindings.get?_map]
    cases Bindings.get? name (s.bindings frame) with
    | none => exact ih
    | some value => rfl

theorem get?_map (s : Store α) (scope : Scope) (name : String) :
    (s.map f).get? scope name = (s.get? scope name).map f :=
  find?_map f s name scope.chain

theorem enclose_map (s : Store α) (outer : Scope) :
    (s.map f).enclose outer = ((s.enclose outer).1, (s.enclose outer).2.map f) := by
  simp [enclose, map]

theorem set_map (s : Store α) (scope : Scope) (name : String) (value : α) :
    (s.map f).set scope name (f value) = (s.set scope name value).map f := by
  unfold set map
  congr 1
  refine Array.ext (by simp) fun i hi _ => ?_
  simp only [Array.getElem_modify, Array.getElem_map]
  split
  · exact Bindings.set_map f name value _
  · rfl

theorem setAll_map (scope : Scope) (pairs : List (String × α)) : ∀ s : Store α,
    (s.map f).setAll scope (pairs.map fun p => (p.1, f p.2)) = (s.setAll scope pairs).map f := by
  induction pairs with
  | nil => exact fun _ => rfl
  | cons p rest ih =>
    intro s
    obtain ⟨name, value⟩ := p
    simp only [List.map_cons, setAll]
    rw [set_map, ih]

end Store

theorem HashTable.insert_map {α β : Type} (f : α → β) (key : HashKey) (entry : α)
    (t : HashTable α) :
    insert key (f entry) (t.map fun p => (p.1, f p.2)) =
      (insert key entry t).map fun p => (p.1, f p.2) := by
  induction t with
  | nil => rfl
  | cons p rest ih =>
    obtain ⟨other, old⟩ := p
    simp only [List.map_cons, insert]
    split
    · rfl
    split
    · rfl
    · simp [ih]

namespace Reference

/-! ## Agreement -/

/-- A memory as a machine. -/
def Memory.toMachine (m : Memory) : Machine :=
  ⟨m.store.map Datum.value, m.closures, m.printed⟩

section Agrees

variable {α β γ : Type} {f : α → β} {g : Value → β}

/-- How a step ends with signals if it ends in a given way with exceptions. A result `a`
is given as `f a`, and a signal `v` as `g v`. -/
def asSignal (f : α → β) (g : Value → β) :
    EStateM.Result Raised Memory α → EStateM.Result Abort Machine β
  | .ok a m => .ok (f a) m.toMachine
  | .error (.fault message) m => .ok (g (.error message)) m.toMachine
  | .error (.returned d) m => .ok (g (.returned d.value)) m.toMachine
  | .error .depthExceeded m => .error .callDepthExceeded m.toMachine

/-- A step with signals and a step with exceptions do the same on every machine that holds
data only. -/
def Agrees (f : α → β) (g : Value → β) (x : Eval β) (y : Run α) : Prop :=
  ∀ m : Memory, x m.toMachine = asSignal f g (y m)

namespace Agrees

theorem pure (a : α) : Agrees f g (Pure.pure (f a)) (Pure.pure a) :=
  fun _ => rfl

theorem fail (fault : Fault) : Agrees f g (Pure.pure (g fault.toValue)) (Reference.fail fault) :=
  fun _ => rfl

theorem returned (d : Datum) :
    Agrees f g (Pure.pure (g (.returned d.value))) (throw (.returned d)) :=
  fun _ => rfl

/-- A check for a signal does what breaking off does by itself. -/
theorem bind {x : Eval Value} {y : Run Datum} {k : Value → Eval β} {l : Datum → Run α}
    (hx : Agrees Datum.value id x y) (hk : ∀ d, Agrees f g (k d.value) (l d)) :
    Agrees f g (x >>= fun v => if v.isSignal then Pure.pure (g v) else k v) (y >>= l) := by
  intro m
  have hm := hx m
  show EStateM.bind x _ m.toMachine = asSignal f g (EStateM.bind y l m)
  unfold EStateM.bind
  rw [hm]
  rcases y m with ⟨d, m'⟩ | ⟨message | d | _, m'⟩
  · show (if d.value.isSignal then _ else k d.value) m'.toMachine = asSignal f g (l d m')
    rw [d.clean.isSignal]
    exact hk d m'
  all_goals rfl

/-- The same where a list of results is handed on, or the signal in its place. -/
theorem collect {δ : Type} {h : γ → δ} {x : Eval (Except Value δ)} {y : Run γ}
    {k : Except Value δ → Eval β} {l : γ → Run α}
    (hx : Agrees (fun c => .ok (h c)) .error x y) (hk : ∀ c, Agrees f g (k (.ok (h c))) (l c))
    (hsignal : ∀ v, k (.error v) = Pure.pure (g v)) : Agrees f g (x >>= k) (y >>= l) := by
  intro m
  have hm := hx m
  show EStateM.bind x k m.toMachine = asSignal f g (EStateM.bind y l m)
  unfold EStateM.bind
  rw [hm]
  rcases y m with ⟨c, m'⟩ | ⟨message | d | _, m'⟩
  · exact hk c m'
  · exact congrFun (hsignal _) _
  · exact congrFun (hsignal _) _
  · rfl

/-- A change that is the same on a memory and on its machine. -/
theorem modify {u : Memory → Memory} {v : Machine → Machine} {k : Unit → Eval β}
    {l : Unit → Run α} (hu : ∀ m, v m.toMachine = (u m).toMachine)
    (hk : Agrees f g (k ()) (l ())) :
    Agrees f g (MonadState.modifyGet (fun m => ((), v m)) >>= k)
      (MonadState.modifyGet (fun m => ((), u m)) >>= l) := by
  intro m
  show k () (v m.toMachine) = asSignal f g (l () (u m))
  rw [hu]
  exact hk (u m)

theorem enclose {scope : Scope} {k : Scope → Eval β} {l : Scope → Run α}
    (hk : ∀ inner, Agrees f g (k inner) (l inner)) :
    Agrees f g (Eval.enclose scope >>= k) (Reference.enclose scope >>= l) := by
  intro m
  have h : m.toMachine.enclose scope =
      ((m.enclose scope).1, (m.enclose scope).2.toMachine) := by
    simp [Machine.enclose, Memory.enclose, Memory.toMachine, Store.enclose_map]
  show k (m.toMachine.enclose scope).1 (m.toMachine.enclose scope).2 =
    asSignal f g (l (m.enclose scope).1 (m.enclose scope).2)
  rw [h]
  exact hk _ _

end Agrees

end Agrees

theorem agrees_orFail (r : Except String Datum) :
    Agrees Datum.value id (pure (Datum.toValue r)) (orFail r) := by
  cases r <;> exact fun _ => rfl

theorem agrees_lookUp (scope : Scope) (name : String) :
    Agrees Datum.value id (Eval.lookUp Library.standard scope name) (lookUp scope name) := by
  intro m
  show EStateM.Result.ok (m.toMachine.lookUp Library.standard scope name) m.toMachine = _
  have hget : m.toMachine.store.get? scope name = (m.store.get? scope name).map Datum.value :=
    Store.get?_map _ _ _ _
  unfold Machine.lookUp lookUp
  rw [hget]
  show _ = asSignal Datum.value id (EStateM.bind EStateM.get _ m)
  unfold EStateM.bind
  dsimp only [EStateM.get]
  cases m.store.get? scope name with
  | some d => rfl
  | none => cases Library.standard.find? name <;> rfl

theorem agrees_newClosure (parameters : List Ident) (body : Block) (scope : Scope) :
    Agrees Datum.value id (Eval.newClosure parameters body scope)
      (newClosure parameters body scope) :=
  fun _ => rfl

theorem toMachine_define (m : Memory) (scope : Scope) (name : String) (d : Datum) :
    m.toMachine.define scope name d.value = (m.define scope name d).toMachine := by
  simp [Machine.define, Memory.define, Memory.toMachine, Store.set_map]

theorem toMachine_defineAll (m : Memory) (scope : Scope) (names : List String)
    (ds : List Datum) :
    m.toMachine.defineAll scope (names.zip (ds.map Datum.value)) =
      (m.defineAll scope (names.zip ds)).toMachine := by
  have hzip : names.zip (ds.map Datum.value) =
      (names.zip ds).map fun p => (p.1, p.2.value) := by
    rw [List.zip_map_right]
    rfl
  simp [Machine.defineAll, Memory.defineAll, Memory.toMachine, hzip, Store.setAll_map]

/-! ## Trees -/

section Trees

variable {apply : Monkey.Apply} {apply' : Reference.Apply}

mutual

/-- Every position of an expression in which a part is evaluated is checked for a signal
before anything else happens. -/
theorem agrees_expr (happly : ∀ f ds, Agrees Datum.value id
      (apply f.value (ds.map Datum.value)) (apply' f ds)) : ∀ (e : Expr) (scope : Scope),
    Agrees Datum.value id (e.eval Library.standard apply scope) (evalExpr apply' e scope)
  | .ident id, scope => agrees_lookUp scope id.name
  | .boolean _ _, _ | .integer _ _, _ | .float _ _, _ | .string _ _, _ => fun _ => rfl
  | .array _ es, scope => by
    rw [Expr.eval, evalExpr]
    exact (agrees_exprs happly es scope).collect (fun ds => .pure (Datum.array ds)) fun _ => rfl
  | .hash _ ps, scope => by
    rw [Expr.eval, evalExpr]
    exact (agrees_pairs happly ps [] scope).collect (fun es => .pure (Datum.hash es)) fun _ => rfl
  | .unary _ op e, scope => by
    rw [Expr.eval, evalExpr]
    refine (agrees_expr happly e scope).bind fun d => ?_
    rw [← Datum.toValue_settle (Value.unary op d.value) (Value.settled_unary op d.value)]
    exact agrees_orFail (d.unary op)
  | .binary _ op l r, scope => by
    rw [Expr.eval, evalExpr]
    refine (agrees_expr happly l scope).bind fun a => (agrees_expr happly r scope).bind fun b => ?_
    rw [← Datum.toValue_settle (Value.binary op a.value b.value) (Value.settled_binary _ _ _)]
    exact agrees_orFail (a.binary op b)
  | .conditional _ c b none, scope => by
    rw [Expr.eval, evalExpr]
    refine (agrees_expr happly c scope).bind fun d => ?_
    split
    · exact .enclose (agrees_block happly b)
    · exact .pure Datum.null
  | .conditional _ c b (some a), scope => by
    rw [Expr.eval, evalExpr]
    refine (agrees_expr happly c scope).bind fun d => ?_
    split
    · exact .enclose (agrees_block happly b)
    · exact .enclose (agrees_block happly a)
  | .function _ ids b, scope => agrees_newClosure ids b scope
  | .call _ f es, scope => by
    rw [Expr.eval, evalExpr]
    refine (agrees_expr happly f scope).bind fun d => ?_
    exact (agrees_exprs happly es scope).collect (fun ds => happly d ds) fun _ => rfl
  | .index _ e k, scope => by
    rw [Expr.eval, evalExpr]
    refine (agrees_expr happly e scope).bind fun t => (agrees_expr happly k scope).bind fun d => ?_
    rw [← Datum.toValue_settle (Value.index t.value d.value) (Value.settled_index t.clean _)]
    exact agrees_orFail (t.index d)
termination_by structural e => e

theorem agrees_exprs (happly : ∀ f ds, Agrees Datum.value id
      (apply f.value (ds.map Datum.value)) (apply' f ds)) : ∀ (es : List Expr) (scope : Scope),
    Agrees (fun ds => .ok (ds.map Datum.value)) .error
      (Expr.evalAll Library.standard apply es scope) (evalExprs apply' es scope)
  | [], _ => fun _ => rfl
  | e :: es, scope => by
    rw [Expr.evalAll, evalExprs]
    refine (agrees_expr happly e scope).bind fun d => ?_
    exact (agrees_exprs happly es scope).collect (fun ds => .pure (d :: ds)) fun _ => rfl
termination_by structural es => es

theorem agrees_pairs (happly : ∀ f ds, Agrees Datum.value id
      (apply f.value (ds.map Datum.value)) (apply' f ds)) :
    ∀ (ps : List (Expr × Expr)) (entries : List (HashKey × Datum × Datum)) (scope : Scope),
      Agrees (fun es => .ok (es.map Datum.ofEntry)) .error
        (Expr.evalPairs Library.standard apply ps (entries.map Datum.ofEntry) scope)
        (evalPairs apply' ps entries scope)
  | [], _, _ => fun _ => rfl
  | (k, v) :: ps, entries, scope => by
    rw [Expr.evalPairs, evalPairs]
    refine (agrees_expr happly k scope).bind fun key => ?_
    cases key.value.hashKey? with
    | none => exact .fail (.notHashable key.value.kind)
    | some filed =>
      refine (agrees_expr happly v scope).bind fun d => ?_
      have hfile : HashTable.insert filed (key.value, d.value) (entries.map Datum.ofEntry) =
          (HashTable.insert filed (key, d) entries).map Datum.ofEntry :=
        HashTable.insert_map (fun p => (p.1.value, p.2.value)) filed (key, d) entries
      rw [hfile]
      exact agrees_pairs happly ps _ scope
termination_by structural ps => ps

theorem agrees_stmt (happly : ∀ f ds, Agrees Datum.value id
      (apply f.value (ds.map Datum.value)) (apply' f ds)) : ∀ (s : Stmt) (scope : Scope),
    Agrees Datum.value id (s.eval Library.standard apply scope) (evalStmt apply' s scope)
  | .bind _ name e, scope => by
    rw [Stmt.eval, evalStmt]
    refine (agrees_expr happly e scope).bind fun d => ?_
    exact .modify (fun m => toMachine_define m scope name.name d) (.pure Datum.null)
  | .ret _ none, _ => .returned .null
  | .ret _ (some e), scope => by
    rw [Stmt.eval, evalStmt]
    exact (agrees_expr happly e scope).bind fun d => .returned d
  | .expr _ e, scope => agrees_expr happly e scope
termination_by structural s => s

theorem agrees_stmts (happly : ∀ f ds, Agrees Datum.value id
      (apply f.value (ds.map Datum.value)) (apply' f ds)) :
    ∀ (ss : List Stmt) (latest : Datum) (scope : Scope),
      Agrees Datum.value id (Stmt.evalAll Library.standard apply ss latest.value scope)
        (evalStmts apply' ss latest scope)
  | [], _, _ => fun _ => rfl
  | s :: ss, _, scope => by
    rw [Stmt.evalAll, evalStmts]
    exact (agrees_stmt happly s scope).bind fun d => agrees_stmts happly ss d scope
termination_by structural ss => ss

theorem agrees_block (happly : ∀ f ds, Agrees Datum.value id
      (apply f.value (ds.map Datum.value)) (apply' f ds)) : ∀ (b : Block) (scope : Scope),
    Agrees Datum.value id (b.eval Library.standard apply scope) (evalBlock apply' b scope)
  | .mk _ ss, scope => agrees_stmts happly ss .null scope
termination_by structural b => b

end

end Trees

/-! ## Calls -/

theorem unwrapReturned_value (d : Datum) : d.value.unwrapReturned = d.value := by
  obtain ⟨v, hv⟩ := d
  cases v with
  | returned v => exact absurd hv (by simp [Value.Clean])
  | _ => rfl

/-- Unwrapping a returned value is what catching a `return` is. -/
theorem Agrees.catchReturn {x : Eval Value} {y : Run Datum} (h : Agrees Datum.value id x y) :
    Agrees Datum.value id (x >>= fun v => Pure.pure v.unwrapReturned)
      (Reference.catchReturn y) := by
  intro m
  have hm := h m
  show EStateM.bind x _ m.toMachine = _
  unfold EStateM.bind Reference.catchReturn
  rw [hm]
  rcases y m with ⟨d, m'⟩ | ⟨message | d | _, m'⟩
  · show EStateM.Result.ok d.value.unwrapReturned m'.toMachine = _
    rw [unwrapReturned_value]
    rfl
  all_goals rfl

/-- A function of the language agrees if the calls in its body do. -/
theorem agrees_applyClosure (n : Nat) (g : Closure) (h : (Value.function g).Clean)
    (ih : ∀ m < n, ∀ f ds, Agrees Datum.value id
      (applyValue Library.standard m f.value (ds.map Datum.value)) (applyDatum m f ds))
    (ds : List Datum) :
    Agrees Datum.value id (applyValue Library.standard n (.function g) (ds.map Datum.value))
      (applyDatum n ⟨.function g, h⟩ ds) := by
  rw [applyValue.eq_def, applyDatum.eq_def]
  dsimp only
  rw [List.length_map]
  split
  · exact .fail (.wrongArity g.parameters.length ds.length)
  cases n with
  | zero => exact fun _ => rfl
  | succ n =>
    refine .enclose fun scope => .modify (fun m => toMachine_defineAll m scope _ ds) ?_
    exact (agrees_block (ih n (Nat.lt_succ_self n)) g.body scope).catchReturn

theorem agrees_applyNative (n : Nat) (g : Native) (h : (Value.native g).Clean)
    (ds : List Datum) :
    Agrees Datum.value id (applyValue Library.standard n (.native g) (ds.map Datum.value))
      (applyDatum n ⟨.native g, h⟩ ds) := by
  rw [applyValue.eq_def, applyDatum.eq_def]
  refine .modify (fun _ => rfl) ?_
  have hcall := agrees_orFail (Datum.call g ds)
  rwa [Datum.call, Datum.toValue_settle] at hcall

/-- Calls agree, however many more may be nested in them. -/
theorem agrees_apply (n : Nat) : ∀ (f : Datum) (ds : List Datum),
    Agrees Datum.value id (applyValue Library.standard n f.value (ds.map Datum.value))
      (applyDatum n f ds) := by
  induction n using Nat.strongRecOn with
  | ind n ih =>
    rintro ⟨v, hv⟩ ds
    cases v with
    | function g => exact agrees_applyClosure n g hv ih ds
    | native g => exact agrees_applyNative n g hv ds
    | returned v => exact absurd hv (by simp [Value.Clean])
    | error message => exact absurd hv (by simp [Value.Clean])
    | _ =>
      rw [applyValue.eq_def, applyDatum.eq_def]
      exact .fail _

/-! ## Programs -/

/-- How a run ends with signals if it ends in a given way with exceptions. -/
def Ending.toOutcome : Ending → Outcome
  | .value d => .value d.value
  | .error message => .value (.error message)
  | .depthExceeded limit => .depthExceeded limit

theorem runProgram_toMachine (maxDepth : Nat) (p : Program) (scope : Scope) (m : Memory) :
    (Evaluator.standard maxDepth).runProgram p scope m.toMachine =
      ((run maxDepth p scope m).1.toOutcome, (run maxDepth p scope m).2.toMachine) := by
  have h : p.eval Library.standard (applyValue Library.standard maxDepth) scope m.toMachine =
      asSignal Datum.value id (catchReturn
        (evalStmts (applyDatum maxDepth) p.statements .null scope) m) :=
    (agrees_stmts (agrees_apply maxDepth) p.statements .null scope).catchReturn m
  show Evaluator.finish (Evaluator.standard maxDepth)
    (p.eval Library.standard (applyValue Library.standard maxDepth) scope) m.toMachine = _
  unfold Evaluator.finish run
  rw [h]
  unfold catchReturn
  rcases evalStmts (applyDatum maxDepth) p.statements .null scope m with
    ⟨d, m'⟩ | ⟨message | d | _, m'⟩
  all_goals rfl

end Reference

/-- No signal is stored on a machine, at any depth of a stored value. -/
def Machine.Clean (m : Machine) : Prop :=
  ∀ b ∈ m.store.frames, ∀ p ∈ b, p.2.Clean

/-- A machine that stores no signal, read as a memory. -/
def Reference.Memory.ofMachine (m : Machine) (hm : m.Clean) : Memory where
  store := ⟨m.store.frames.attach.map fun b =>
    b.val.attach.map fun p => (p.val.1, ⟨p.val.2, hm b.val b.property p.val p.property⟩)⟩
  closures := m.closures
  printed := m.printed

namespace Reference

theorem toMachine_ofMachine (m : Machine) (hm : m.Clean) :
    (Memory.ofMachine m hm).toMachine = m := by
  have hframe (b : Bindings Value) : (b.attach.map fun p => p.val) = b :=
    List.attach_map_subtype_val b
  unfold Memory.toMachine Memory.ofMachine Store.map
  simp [Function.comp_def, hframe]

/-- A program ends as the reference says and leaves the machine as the reference says, with
the same bindings and the same text printed, if no signal is stored to begin with. -/
theorem runProgram_eq_run (maxDepth : Nat) (p : Program) (scope : Scope) (m : Machine)
    (hm : m.Clean) :
    (Evaluator.standard maxDepth).runProgram p scope m =
      ((run maxDepth p scope (.ofMachine m hm)).1.toOutcome,
        (run maxDepth p scope (.ofMachine m hm)).2.toMachine) := by
  have h := runProgram_toMachine maxDepth p scope (.ofMachine m hm)
  rwa [toMachine_ofMachine] at h

/-- The two agree on a call of a null that is stored. -/
theorem runProgram_eq_run_null :
    ∃ hm : Machine.Clean ⟨⟨#[[("x", .null)]]⟩, 0, ""⟩,
      (Evaluator.standard 0).runProgram
          ⟨[.expr default (.call default (.ident ⟨default, "x"⟩) [])]⟩ ⟨0, []⟩
          ⟨⟨#[[("x", .null)]]⟩, 0, ""⟩ =
        ((run 0 ⟨[.expr default (.call default (.ident ⟨default, "x"⟩) [])]⟩ ⟨0, []⟩
            (.ofMachine ⟨⟨#[[("x", .null)]]⟩, 0, ""⟩ hm)).1.toOutcome,
          (run 0 ⟨[.expr default (.call default (.ident ⟨default, "x"⟩) [])]⟩ ⟨0, []⟩
            (.ofMachine ⟨⟨#[[("x", .null)]]⟩, 0, ""⟩ hm)).2.toMachine) :=
  ⟨by simp [Machine.Clean, Value.Clean], runProgram_eq_run 0 _ _ _ _⟩

end Reference

end Monkey
