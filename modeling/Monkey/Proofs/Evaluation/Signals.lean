import Monkey.Proofs.Evaluation.Datum
import Monkey.Proofs.Evaluation.Footprint
import Monkey.Proofs.Evaluation.Termination
import Monkey.Run.Session

/-!
# Signals are never stored

Errors and returned values pass through evaluation, and nothing keeps one. Whatever a
program of a session does, at every step of its run there is no signal in a binding, in
an array or a hash, among the arguments of a call, or under a returned value
(`Config.Clean`). This is what a step keeps (`clean_step`), so a run keeps it
(`clean_walk`), and so does a session (`Session.Reaches.stores`).

A value is handed on as `Value.Handed` says: it is clean, an error or a returned value
that is clean inside. A frame goes on only with a value that is no signal, and such a
value is clean. Where a call or a program ends, a returned value is taken out of its
wrapping, and what is left is clean or an error.
-/

namespace Monkey

namespace Value

/-- A value as it is handed from one step to the next: a clean one, an error, or a clean one that
is being returned. -/
inductive Handed : Value → Prop
  | settled {v : Value} (h : v.Settled) : Handed v
  | returned {v : Value} (h : v.Clean) : Handed (.returned v)

theorem Clean.handed {v : Value} (h : v.Clean) : v.Handed := .settled (.clean h)

/-- What is handed on and is no signal is clean. -/
theorem Handed.clean {v : Value} (h : v.Handed) (hv : v.isSignal = false) : v.Clean := by
  rcases h with (⟨message⟩ | ⟨h⟩) | ⟨h⟩
  · cases hv
  · exact h
  · cases hv

/-- A returned value that is taken out of its wrapping is clean. -/
theorem Handed.settled_unwrapReturned {v : Value} (h : v.Handed) : v.unwrapReturned.Settled := by
  rcases h with (⟨message⟩ | ⟨h⟩) | ⟨h⟩
  · exact .error message
  · cases v with
    | returned v => exact absurd h (by simp [Clean])
    | _ => exact .clean h
  · exact .clean h

theorem CleanAll.concat {vs : List Value} {v : Value} (hvs : CleanAll vs) (hv : v.Clean) :
    CleanAll (vs ++ [v]) := by
  rw [cleanAll_iff] at hvs ⊢
  intro w hw
  rcases List.mem_append.mp hw with hw | hw
  · exact hvs w hw
  · rwa [List.mem_singleton.mp hw]

theorem CleanEntries.insert {entries : List (HashKey × Value × Value)} {k v : Value}
    (hentries : CleanEntries entries) (hk : k.Clean) (hv : v.Clean) (filed : HashKey) :
    CleanEntries (HashTable.insert filed (k, v) entries) := by
  rw [cleanEntries_iff] at hentries ⊢
  intro entry hentry
  rcases HashTable.mem_insert hentry with rfl | hentry
  · exact ⟨hk, hv⟩
  · exact hentries entry hentry

end Value

theorem Machine.Stores.defineAll {P : Value → Prop} {m : Machine} (h : m.Stores P) (scope : Scope)
    {pairs : List (String × Value)} (hpairs : ∀ p ∈ pairs, P p.2) :
    (m.defineAll scope pairs).Stores P := by
  induction pairs generalizing m with
  | nil => exact h
  | cons p pairs ih =>
    have hp := hpairs p List.mem_cons_self
    exact ih (h.define scope p.1 hp) fun q hq => hpairs q (List.mem_cons_of_mem p hq)

namespace Stepwise

/-! ## No signal is kept -/

def Purpose.Clean : Purpose → Prop
  | elements => True
  | arguments f => f.Clean

/-- The values that wait in a frame are clean. -/
def Frame.Clean : Frame → Prop
  | .right _ a => a.Clean
  | .item purpose before _ _ => purpose.Clean ∧ Value.CleanAll before
  | .key _ _ entries _ => Value.CleanEntries entries
  | .entry _ k _ entries _ => k.Clean ∧ Value.CleanEntries entries
  | .position t => t.Clean
  | .operand _ | .left _ _ _ | .condition _ _ _ | .callee _ _ | .target _ _ | .bind _ _ | .ret
  | .statement _ _ => True

def Pending.Clean : Pending → Prop
  | .frame f => f.Clean
  | .call => True

/-- The values that a step starts with are clean, and one that is handed on may also be a
signal. -/
def Control.Clean : Control → Prop
  | .exprs purpose before _ _ => purpose.Clean ∧ Value.CleanAll before
  | .pairs _ entries _ => Value.CleanEntries entries
  | .stmts _ latest _ => latest.Clean
  | .apply f arguments => f.Clean ∧ Value.CleanAll arguments
  | .give v => v.Handed
  | .expr _ _ | .stmt _ _ | .lookUp _ _ => True

/-- Nowhere in a run is a signal kept. -/
structure Config.Clean (c : Config) : Prop where
  control : c.control.Clean
  stack : ∀ p ∈ c.stack, p.Clean
  machine : c.machine.Stores Value.Clean

/-- Nowhere in a run is a signal kept, and it does not end with a returned value. -/
def Progress.Clean : Progress → Prop
  | .running c => c.Clean
  | .halted outcome m => m.Stores Value.Clean ∧ ∀ v, outcome = .value v → v.Settled

variable {stack : List Pending} {depth : Nat} {m : Machine}

theorem forall_mem_push {f : Frame} (hf : f.Clean) (hstack : ∀ p ∈ stack, p.Clean) :
    ∀ p ∈ Pending.frame f :: stack, p.Clean := by
  intro p hp
  rcases List.mem_cons.mp hp with rfl | hp
  · exact hf
  · exact hstack p hp

theorem clean_openBlock (b : Block) (scope : Scope) (hstack : ∀ p ∈ stack, p.Clean)
    (hm : m.Stores Value.Clean) : (openBlock b scope stack depth m).Clean :=
  ⟨trivial, hstack, hm.enclose scope⟩

theorem clean_visit (hstack : ∀ p ∈ stack, p.Clean) (hm : m.Stores Value.Clean) (x : Expr)
    (scope : Scope) : (visit stack depth m x scope).Clean := by
  cases x with
  | ident id => exact ⟨trivial, hstack, hm⟩
  | array _ xs => exact ⟨⟨trivial, trivial⟩, hstack, hm⟩
  | hash _ ps => exact ⟨trivial, hstack, hm⟩
  | boolean | integer | float | string | function =>
    exact ⟨Value.Clean.handed trivial, hstack, hm⟩
  | unary | binary | conditional | call | index =>
    exact ⟨trivial, forall_mem_push trivial hstack, hm⟩

/-- A frame goes on with a clean value, and what it makes of it may be kept. -/
theorem clean_resume {v : Value} (hv : v.Clean) {f : Frame} (hf : f.Clean)
    (hstack : ∀ p ∈ stack, p.Clean) (hm : m.Stores Value.Clean) :
    (resume stack depth m v f).Clean := by
  cases f with
  | operand operator => exact ⟨.settled (Value.settled_unary _ _), hstack, hm⟩
  | left operator right scope => exact ⟨trivial, forall_mem_push hv hstack, hm⟩
  | right operator left => exact ⟨.settled (Value.settled_binary _ _ _), hstack, hm⟩
  | condition consequence alternative scope =>
    by_cases htruthy : v.isTruthy
    · simpa only [resume, htruthy, if_true] using clean_openBlock consequence scope hstack hm
    · cases alternative with
      | none =>
        rw [resume, if_neg htruthy]
        exact ⟨Value.Clean.handed trivial, hstack, hm⟩
      | some block =>
        rw [resume, if_neg htruthy]
        exact clean_openBlock block scope hstack hm
  | callee arguments scope => exact ⟨⟨hv, trivial⟩, hstack, hm⟩
  | item purpose before after scope => exact ⟨⟨hf.1, hf.2.concat hv⟩, hstack, hm⟩
  | key value after entries scope =>
    rw [resume]
    cases v.hashKey? with
    | none => exact ⟨.settled (Value.settled_fault _), hstack, hm⟩
    | some filed => exact ⟨trivial, forall_mem_push ⟨hv, hf⟩ hstack, hm⟩
  | entry filed key after entries scope => exact ⟨hf.2.insert hf.1 hv filed, hstack, hm⟩
  | target key scope => exact ⟨trivial, forall_mem_push hv hstack, hm⟩
  | position target => exact ⟨.settled (Value.settled_index hf v), hstack, hm⟩
  | bind name scope => exact ⟨Value.Clean.handed trivial, hstack, hm.define scope name hv⟩
  | ret => exact ⟨.returned hv, hstack, hm⟩
  | statement after scope => exact ⟨hv, hstack, hm⟩

/-- The parameters of a body are bound to the arguments, which are clean. -/
theorem stores_parameters (f : Closure) {arguments : List Value}
    (harguments : Value.CleanAll arguments) (hm : m.Stores Value.Clean) (scope : Scope) :
    (m.defineAll scope ((f.parameters.map (·.name)).zip arguments)).Stores Value.Clean := by
  refine hm.defineAll scope fun p hp => ?_
  exact Value.cleanAll_iff.mp harguments p.2 (List.of_mem_zip hp).2

section Standard

variable {maxDepth : Nat}

theorem clean_enterCall {f : Value} {arguments : List Value} (hf : f.Clean)
    (harguments : Value.CleanAll arguments) (hstack : ∀ p ∈ stack, p.Clean)
    (hm : m.Stores Value.Clean) :
    (enterCall (.standard maxDepth) stack depth m arguments f).Clean := by
  cases f with
  | function f =>
    rw [enterCall]
    split
    · exact ⟨.settled (Value.settled_fault _), hstack, hm⟩
    split
    · refine ⟨hm, ?_⟩
      rintro v ⟨⟩
    · refine ⟨trivial, ?_, stores_parameters f harguments (hm.enclose f.scope) _⟩
      intro p hp
      rcases List.mem_cons.mp hp with rfl | hp
      · trivial
      · exact hstack p hp
  | native f => exact ⟨.settled (Library.settled_call f harguments), hstack, hm⟩
  | _ => exact ⟨.settled (Value.settled_fault _), hstack, hm⟩

theorem clean_handOver {v : Value} (hv : v.Handed) (hstack : ∀ p ∈ stack, p.Clean)
    (hm : m.Stores Value.Clean) : (handOver depth m v stack).Clean := by
  cases stack with
  | nil =>
    refine ⟨hm, ?_⟩
    rintro w ⟨⟩
    exact hv.settled_unwrapReturned
  | cons pending stack =>
    obtain ⟨htop, hbelow⟩ := List.forall_mem_cons.mp hstack
    cases pending with
    | call => exact ⟨.settled hv.settled_unwrapReturned, hbelow, hm⟩
    | frame f =>
      rw [handOver]
      split
      · exact ⟨hv, hbelow, hm⟩
      · next hsignal =>
        exact clean_resume (hv.clean (Bool.eq_false_iff.mpr hsignal)) htop hbelow hm

/-- A step keeps no signal. -/
theorem clean_step {c : Config} (h : c.Clean) : (step (.standard maxDepth) c).Clean := by
  obtain ⟨hcontrol, hstack, hm⟩ := h
  unfold step
  split
  case h_1 => exact clean_visit hstack hm _ _
  case h_2 purpose values _ _ _ _ =>
    cases purpose with
    | elements => exact ⟨Value.Clean.handed hcontrol.2, hstack, hm⟩
    | arguments f => exact ⟨hcontrol, hstack, hm⟩
  case h_3 => exact ⟨trivial, forall_mem_push hcontrol hstack, hm⟩
  case h_4 => exact ⟨Value.Clean.handed hcontrol, hstack, hm⟩
  case h_5 => exact ⟨trivial, forall_mem_push hcontrol hstack, hm⟩
  case h_6 => exact ⟨trivial, forall_mem_push trivial hstack, hm⟩
  case h_7 => exact ⟨.returned trivial, hstack, hm⟩
  case h_8 => exact ⟨trivial, forall_mem_push trivial hstack, hm⟩
  case h_9 => exact ⟨trivial, hstack, hm⟩
  case h_10 => exact ⟨Value.Clean.handed hcontrol, hstack, hm⟩
  case h_11 => exact ⟨trivial, forall_mem_push trivial hstack, hm⟩
  case h_12 =>
    split
    · exact ⟨Value.Clean.handed trivial, hstack, hm⟩
    · exact ⟨.settled (Value.settled_fault _), hstack, hm⟩
  case h_13 =>
    split
    · next v hv => exact ⟨(hm _ _ (Bindings.mem_of_get? hv)).handed, hstack, hm⟩
    · exact ⟨trivial, hstack, hm⟩
  case h_14 => exact clean_enterCall hcontrol.1 hcontrol.2 hstack hm
  case h_15 => exact clean_handOver hcontrol hstack hm

/-- A run keeps no signal. -/
theorem clean_walk : ∀ (n : Nat) {p : Progress}, p.Clean → (walk (.standard maxDepth) n p).Clean
  | 0, _, h => h
  | n + 1, .running _, h => clean_walk n (clean_step h)
  | _ + 1, .halted _ _, h => h

theorem Leads.clean {p q : Progress} (h : Leads (.standard maxDepth) p q) (hp : p.Clean) :
    q.Clean := by
  obtain ⟨n, rfl⟩ := h
  exact clean_walk n hp

theorem clean_start (p : Program) (scope : Scope) (hm : m.Stores Value.Clean) :
    (start p scope m).Clean :=
  ⟨trivial, List.forall_mem_nil _, hm⟩

theorem clean_runProgram (p : Program) (scope : Scope) (hm : m.Stores Value.Clean) :
    (Progress.halted ((Evaluator.standard maxDepth).runProgram p scope m).1
      ((Evaluator.standard maxDepth).runProgram p scope m).2).Clean :=
  (leads_runProgram (.standard maxDepth) p scope m).clean (clean_start p scope hm)

end Standard

theorem handed_block {n : Nat} {b : Block} {scope : Scope} {v : Value} {m' : Machine}
    (hm : m.Stores Value.Clean)
    (h : b.eval Library.standard (applyValue Library.standard n) scope m = .ok v m') :
    v.Handed := by
  have hleads := leads_block (leads_apply (e := .standard n) n (Nat.zero_add n)) b scope [] m
  have hclean := hleads.clean ⟨trivial, List.forall_mem_nil _, hm⟩
  change (after _ _ (b.eval Library.standard (applyValue Library.standard n) scope m)).Clean
    at hclean
  rw [h] at hclean
  exact hclean.control

/-- A call gives a clean value or an error: what its body returns is taken out of its wrapping. -/
theorem settled_applyValue {f v : Value} {arguments : List Value} {m' : Machine} (hf : f.Clean)
    (harguments : Value.CleanAll arguments) (hm : m.Stores Value.Clean) {n : Nat}
    (h : applyValue Library.standard n f arguments m = .ok v m') : v.Settled := by
  rw [applyValue.eq_def] at h
  cases f with
  | function f =>
    dsimp only at h
    split at h
    · cases h
      exact Value.settled_fault _
    cases n with
    | zero => cases h
    | succ n =>
      dsimp only at h
      rw [enclose_bind, modify_bind] at h
      change EStateM.bind (f.body.eval _ _ _) _ _ = _ at h
      unfold EStateM.bind at h
      split at h
      · next hbody =>
        cases h
        have hm' := stores_parameters f harguments (hm.enclose f.scope) (m.enclose f.scope).1
        exact (handed_block hm' hbody).settled_unwrapReturned
      · cases h
  | native f =>
    cases h
    exact Library.settled_call f harguments
  | _ =>
    cases h
    exact Value.settled_fault _

end Stepwise

/-! ## Sessions -/

namespace Session

open Stepwise

/-- The machines that a session gets to by running programs in its scope, one after the other.
What has been printed may be taken away in between. -/
inductive Reaches (e : Evaluator) : Machine → Prop
  | start : Reaches e (Session.start e).machine
  | run {m : Machine} (h : Reaches e m) (p : Program) :
    Reaches e (e.runProgram p (Session.start e).scope m).2
  | drain {m : Machine} (h : Reaches e m) : Reaches e m.drain.2

variable {maxDepth : Nat} {m : Machine}

theorem stores_start (P : Value → Prop) (e : Evaluator) : (start e).machine.Stores P := by
  intro frame p hp
  have hempty : (start e).machine.store.bindings frame = [] := by
    cases frame with
    | zero => rfl
    | succ frame => simp [start, Machine.root, Store.root, Machine.new, Store.empty, Store.bindings]
  rw [hempty] at hp
  cases hp

/-- Between the programs of a session no signal is stored. -/
theorem Reaches.stores (h : Reaches (.standard maxDepth) m) : m.Stores Value.Clean := by
  induction h with
  | start => exact stores_start _ _
  | run _ p ih => exact (clean_runProgram p _ ih).1
  | drain _ ih => exact ih

/-- The start of a program in the scope of a session. -/
def begin (e : Evaluator) (p : Program) (m : Machine) : Progress :=
  .running (Stepwise.start p (start e).scope m)

/-- **Signals are never kept and never leak.** Whatever programs a session has run, at every step
of the next one no signal is in a binding, in an array or a hash, among the arguments of a call or
under a returned value. So each call and each program gives a clean value, or an error as a
whole. -/
theorem signals_never_kept (h : Reaches (.standard maxDepth) m) (p : Program) :
    (∀ n, (walk (.standard maxDepth) n (begin (.standard maxDepth) p m)).Clean) ∧
    (∀ n c f arguments,
      walk (.standard maxDepth) n (begin (.standard maxDepth) p m) = .running c →
      c.control = .apply f arguments → ∀ remaining v m',
        applyValue Library.standard remaining f arguments c.machine = .ok v m' → v.Settled) ∧
    ∀ v, ((Evaluator.standard maxDepth).runProgram p (start (.standard maxDepth)).scope m).1 =
      .value v → v.Settled := by
  have hwalk : ∀ n, (walk (.standard maxDepth) n (begin (.standard maxDepth) p m)).Clean :=
    fun n => clean_walk n (clean_start p _ h.stores)
  refine ⟨hwalk, ?_, (clean_runProgram p _ h.stores).2⟩
  intro n c f arguments hc hcontrol remaining v m' hv
  have hclean := hwalk n
  rw [hc] at hclean
  have happly := hclean.control
  rw [hcontrol] at happly
  exact settled_applyValue happly.1 happly.2 hclean.machine hv

/-- After a line that returns from the middle of an array, no signal is kept at any of the first
steps of a line that uses an unknown name. -/
theorem signals_never_kept_return :
    Reaches (.standard 3) ((Evaluator.standard 3).runProgram
      (parse "let a = [1, if (true) { return 2; }];").program (start (.standard 3)).scope
      (start (.standard 3)).machine).2 ∧
    (walk (.standard 3) 20 (begin (.standard 3) (parse "[a, b]").program
      ((Evaluator.standard 3).runProgram
        (parse "let a = [1, if (true) { return 2; }];").program (start (.standard 3)).scope
        (start (.standard 3)).machine).2)).Clean :=
  ⟨.run .start _, (signals_never_kept (.run .start _) _).1 20⟩

end Session

end Monkey
