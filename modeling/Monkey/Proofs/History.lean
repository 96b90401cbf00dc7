import Mathlib.Data.Fin.Basic
import Monkey.Proofs.Evaluation.Footprint

/-!
# What a store makes of its history

Environments come about one after the other: a new one stands by itself or inside one that
is there already, and at any time a name can be set in any of them (`History`). The history
alone says what is around an environment (`History.outer?`) and which value a name was given
there last (`History.latest`). A store knows neither. It has frames that are written over, and
scopes that list frames.

Running a history on a store keeps the two in step: the scope of an environment lists the
environments around it, from link to link, and a frame binds each name to the value it was given
last (`History.records_run`). Links go to earlier environments only. So a name is
looked up along finitely many environments, and what is found is what the nearest of them was
given last (`History.get?_iff_nearest`).
-/

namespace Monkey

/-- How some environments came about. The number says how many there are, and environments
are numbered as they come. -/
inductive History (α : Type) : Nat → Type
  | empty : History α 0
  | root {n : Nat} (before : History α n) : History α (n + 1)
  | enclose {n : Nat} (before : History α n) (outer : Fin n) : History α (n + 1)
  | set {n : Nat} (before : History α n) (env : Fin n) (name : String) (value : α) : History α n

/-- A store with environments, and the scope of each. -/
structure Environments (α : Type) (n : Nat) where
  scopes : Vector Scope n
  store : Store α

/-- The value of a name as seen from an environment. -/
def Environments.get? {α : Type} {n : Nat} (es : Environments α n) (env : Fin n)
    (name : String) : Option α :=
  es.store.get? es.scopes[env] name

namespace History

variable {α : Type} {n : Nat}

/-- Does on a store what has been done. -/
def run {n : Nat} : History α n → Environments α n
  | empty => ⟨#v[], Store.empty⟩
  | root before =>
    let es := before.run
    let (scope, store) := es.store.root
    ⟨es.scopes.push scope, store⟩
  | enclose before outer =>
    let es := before.run
    let (scope, store) := es.store.enclose es.scopes[outer]
    ⟨es.scopes.push scope, store⟩
  | set before env name value =>
    let es := before.run
    { es with store := es.store.set es.scopes[env] name value }

/-- The environment around another, if there is one. -/
def outer? {n : Nat} : History α n → Nat → Option Nat
  | empty, _ => none
  | root (n := n) before, env => if env = n then none else before.outer? env
  | enclose (n := n) before outer, env => if env = n then some outer else before.outer? env
  | set before _ _ _, env => before.outer? env

/-- The value that a name was given last in an environment, none if it was never given one. -/
def latest {n : Nat} : History α n → Nat → String → Option α
  | empty, _, _ => none
  | root before, env, name => before.latest env name
  | enclose before _, env, name => before.latest env name
  | set before target other value, env, name =>
    if env = target ∧ name = other then some value else before.latest env name

/-- The environments, each inside the one around it. -/
def graph (h : History α n) : Graph := ⟨n, h.outer?⟩

/-! ## Links -/

/-- What is around an environment was there before it. -/
theorem lt_of_outer? (h : History α n) {env outer : Nat} (hlink : h.outer? env = some outer) :
    outer < env ∧ env < n := by
  induction h with
  | empty => cases hlink
  | root before ih =>
    unfold outer? at hlink
    split at hlink
    · cases hlink
    · have := ih hlink
      omega
  | enclose before around ih =>
    unfold outer? at hlink
    split at hlink
    · next heq =>
      obtain rfl := Option.some.inj hlink
      have := around.isLt
      omega
    · have := ih hlink
      omega
  | set before _ _ _ ih => exact ih hlink

theorem graph_le_root (h : History α n) : h.graph ≤ h.root.graph :=
  ⟨Nat.le_succ n, fun _ henv => if_neg (Nat.ne_of_lt henv)⟩

theorem graph_le_enclose (h : History α n) (outer : Fin n) : h.graph ≤ (h.enclose outer).graph :=
  ⟨Nat.le_succ n, fun _ henv => if_neg (Nat.ne_of_lt henv)⟩

/-- A chain of environments goes back in time. -/
theorem pairwise_of_chain (h : History α n) {envs : List Nat} (hchain : h.graph.Chain envs) :
    envs.Pairwise (· > ·) := by
  induction hchain with
  | root => exact List.pairwise_singleton _ _
  | @inside env outer rest henv hlink _ ih =>
    have hearlier : outer < env := (h.lt_of_outer? hlink).1
    refine List.pairwise_cons.mpr ⟨fun other hother => ?_, ih⟩
    rcases List.mem_cons.mp hother with rfl | hother
    · exact hearlier
    · exact ((List.pairwise_cons.mp ih).1 other hother).trans hearlier

end History

/-- There is one chain from each frame. -/
theorem Graph.Chain.unique {g : Graph} {frame : Nat} {rest rest' : List Nat}
    (h : g.Chain (frame :: rest)) (h' : g.Chain (frame :: rest')) : rest' = rest := by
  generalize hframes : frame :: rest = frames at h
  induction h generalizing frame rest rest' with
  | root _ hlink =>
    obtain ⟨rfl, rfl⟩ := List.cons.inj hframes
    cases h' with
    | root => rfl
    | inside _ hlink' _ => cases hlink.symm.trans hlink'
  | inside _ hlink _ ih =>
    obtain ⟨rfl, rfl⟩ := List.cons.inj hframes
    cases h' with
    | root _ hlink' => cases hlink.symm.trans hlink'
    | inside _ hlink' hrest' =>
      obtain rfl := Option.some.inj (hlink.symm.trans hlink')
      rw [ih hrest' rfl]

/-! ## Stores -/

namespace Store

variable {α : Type}

theorem bindings_root (s : Store α) (frame : Nat) : s.root.2.bindings frame = s.bindings frame :=
  s.bindings_enclose default frame

theorem find?_eq_findSome? (s : Store α) (name : String) (frames : List Nat) :
    s.find? name frames = frames.findSome? fun frame => (s.bindings frame).get? name := by
  induction frames with
  | nil => rfl
  | cons frame outer ih =>
    rw [find?, List.findSome?_cons, ih]
    rfl

end Store

namespace History

variable {α : Type} {n : Nat}

/-- Environments are as a history says. -/
structure Records (h : History α n) (es : Environments α n) : Prop where
  size : es.store.frames.size = n
  frame : ∀ env : Fin n, es.scopes[env].frame = env
  chain : ∀ env : Fin n, h.graph.Chain es.scopes[env].chain
  bindings : ∀ env name, (es.store.bindings env).get? name = h.latest env name

namespace Records

variable {h : History α n} {es : Environments α n}

/-- Environments with one more, which has the next frame. -/
theorem push {h' : History α (n + 1)} {s : Scope} {store : Store α} (hes : h.Records es)
    (hle : h.graph ≤ h'.graph) (hsize : store.frames.size = n + 1) (hframe : s.frame = n)
    (hchain : h'.graph.Chain s.chain)
    (hbindings : ∀ env name, (store.bindings env).get? name = h'.latest env name) :
    h'.Records ⟨es.scopes.push s, store⟩ where
  size := hsize
  bindings := hbindings
  frame env := by
    induction env using Fin.lastCases with
    | last => simpa using hframe
    | cast env => simpa using hes.frame env
  chain env := by
    induction env using Fin.lastCases with
    | last => simpa using hchain
    | cast env => simpa using (hes.chain env).mono hle

theorem root (hes : h.Records es) :
    h.root.Records ⟨es.scopes.push es.store.root.1, es.store.root.2⟩ := by
  have hframe : es.store.root.1.frame = n := hes.size
  refine hes.push h.graph_le_root ?_ hframe ?_ fun env name => ?_
  · exact (Array.size_push _).trans (congrArg (· + 1) hes.size)
  · have hlink : h.root.graph.link n = none := if_pos rfl
    have hchain : es.store.root.1.chain = [n] := congrArg (· :: []) hframe
    rw [hchain]
    exact .root (Nat.lt_succ_self n) hlink
  · rw [Store.bindings_root]
    exact hes.bindings env name

theorem enclose (hes : h.Records es) (outer : Fin n) :
    (h.enclose outer).Records ⟨es.scopes.push (es.store.enclose es.scopes[outer]).1,
      (es.store.enclose es.scopes[outer]).2⟩ := by
  have hframe : (es.store.enclose es.scopes[outer]).1.frame = n := hes.size
  refine hes.push (h.graph_le_enclose outer) ?_ hframe ?_ fun env name => ?_
  · rw [Store.size_enclose, hes.size]
  · have hlink : (h.enclose outer).graph.link n = some ↑outer := if_pos rfl
    have hchain : (es.store.enclose es.scopes[outer]).1.chain = n :: es.scopes[outer].chain :=
      congrArg (· :: es.scopes[outer].chain) hframe
    have houter := (hes.chain outer).mono (h.graph_le_enclose outer)
    rw [hchain]
    unfold Scope.chain at houter ⊢
    rw [hes.frame outer] at houter ⊢
    exact .inside (Nat.lt_succ_self n) hlink houter
  · rw [Store.bindings_enclose]
    exact hes.bindings env name

theorem set (hes : h.Records es) (env : Fin n) (name : String) (value : α) :
    (h.set env name value).Records
      { es with store := es.store.set es.scopes[env] name value } where
  size := (Store.size_set _ _ _ _).trans hes.size
  frame := hes.frame
  chain := hes.chain
  bindings other name' := by
    rw [Store.bindings_set, hes.frame env, hes.size, latest]
    by_cases hother : other = env
    · subst hother
      rw [if_pos ⟨rfl, env.isLt⟩]
      by_cases hname : name' = name
      · rw [hname, if_pos ⟨rfl, rfl⟩, Bindings.get?_set_self]
      · rw [if_neg fun hand => hname hand.2, Bindings.get?_set_of_ne hname]
        exact hes.bindings env name'
    · rw [if_neg fun hand => hother hand.1, if_neg fun hand => hother hand.1]
      exact hes.bindings other name'

end Records

/-- Running a history on a store makes the environments that it records. -/
theorem records_run (h : History α n) : h.Records h.run := by
  induction h with
  | empty =>
    refine ⟨rfl, fun env => env.elim0, fun env => env.elim0, fun env name => ?_⟩
    simp [run, Store.bindings, Store.empty, Bindings.get?, latest]
  | root _ ih => exact ih.root
  | enclose _ outer ih => exact ih.enclose outer
  | set _ env name value ih => exact ih.set env name value

/-! ## Looking up names -/

/-- Along some environments, `target` is reached before any other that was ever given a value of
that name. -/
def Exposes (h : History α n) (envs : List Nat) (name : String) (target : Nat) : Prop :=
  ∃ near far, envs = near ++ target :: far ∧ ∀ env ∈ near, h.latest env name = none

/-- The value of a name along some environments. -/
def nearest? (h : History α n) (envs : List Nat) (name : String) : Option α :=
  envs.findSome? fun env => h.latest env name

theorem get?_run (h : History α n) (env : Fin n) (name : String) :
    h.run.get? env name = h.nearest? h.run.scopes[env].chain name := by
  rw [Environments.get?, Store.get?, Store.find?_eq_findSome?]
  exact congrArg (List.findSome? · _) (funext fun other => h.records_run.bindings other name)

theorem nearest?_eq_some_iff (h : History α n) {envs : List Nat} {name : String} {value : α} :
    h.nearest? envs name = some value ↔
      ∃ target, h.Exposes envs name target ∧ h.latest target name = some value := by
  rw [nearest?, List.findSome?_eq_some_iff]
  constructor
  · rintro ⟨near, target, far, hsplit, hvalue, hnear⟩
    exact ⟨target, ⟨near, far, hsplit, hnear⟩, hvalue⟩
  · rintro ⟨target, ⟨near, far, hsplit, hnear⟩, hvalue⟩
    exact ⟨near, target, far, hsplit, hvalue, hnear⟩

theorem nearest?_congr {h h' : History α n} {envs : List Nat} {name : String}
    (hsame : ∀ env ∈ envs, h'.latest env name = h.latest env name) :
    h'.nearest? envs name = h.nearest? envs name := by
  unfold nearest?
  induction envs with
  | nil => rfl
  | cons env envs ih =>
    rw [List.findSome?_cons, List.findSome?_cons, hsame env List.mem_cons_self,
      ih fun other hother => hsame other (List.mem_cons_of_mem env hother)]

variable {envs : List Nat} {name : String} {target : Fin n}

theorem latest_set_of_ne (h : History α n) (value : α) {env : Nat} {name' : String}
    (hne : ¬(env = target ∧ name' = name)) :
    (h.set target name value).latest env name' = h.latest env name' :=
  if_neg hne

/-- What is set is seen where nothing nearer has the name. -/
theorem nearest?_set_of_exposes (h : History α n) (value : α)
    (hexposes : h.Exposes envs name target) :
    (h.set target name value).nearest? envs name = some value := by
  obtain ⟨near, far, rfl, hnear⟩ := hexposes
  induction near with
  | nil => simp [nearest?, latest]
  | cons env near ih =>
    have hrest := ih fun other hother => hnear other (List.mem_cons_of_mem env hother)
    unfold nearest? at hrest ⊢
    rw [List.cons_append, List.findSome?_cons, hrest]
    by_cases htarget : env = target
    · rw [show (h.set target name value).latest env name = some value from if_pos ⟨htarget, rfl⟩]
    · rw [latest_set_of_ne h value fun hand => htarget hand.1, hnear env List.mem_cons_self]

/-- Elsewhere, and under other names, nothing changes. -/
theorem nearest?_set_of_not_exposes (h : History α n) (value : α) {name' : String}
    (hexposes : ¬(name' = name ∧ h.Exposes envs name target)) :
    (h.set target name value).nearest? envs name' = h.nearest? envs name' := by
  by_cases hname : name' = name
  · subst hname
    by_cases hmem : ↑target ∈ envs
    · -- something before the environment has the name, and is found instead
      obtain ⟨near, far, rfl, hnot⟩ := List.eq_append_cons_of_mem hmem
      have hfound : ¬∀ env ∈ near, h.latest env name' = none := fun hnear =>
        hexposes ⟨rfl, near, far, rfl, hnear⟩
      have hnear : (h.set target name' value).nearest? near name' = h.nearest? near name' :=
        nearest?_congr fun env henv => latest_set_of_ne h value fun hand => hnot (hand.1 ▸ henv)
      rw [← List.findSome?_eq_none_iff] at hfound
      obtain ⟨found, hfound⟩ := Option.ne_none_iff_exists'.mp hfound
      unfold nearest? at hnear ⊢
      rw [List.findSome?_append, List.findSome?_append, hnear, hfound]
      rfl
    · exact nearest?_congr fun env henv =>
        latest_set_of_ne h value fun hand => hmem (hand.1 ▸ henv)
  · exact nearest?_congr fun env henv => latest_set_of_ne h value fun hand => hname hand.2

/-- **What is seen from an environment**, whatever was done before, in whatever order.

Every link goes to an environment that was made earlier. So there is one chain of environments
around each, it goes back in time, and it ends. A name has the value that it was given last in the
nearest environment of the chain in which it was ever given one, and no value if there is none.
So what is set in an environment is seen from there, and from those inside it that have
nothing of that name on the way. Nothing else that is seen changes. -/
theorem get?_iff_nearest (h : History α n) :
    (∀ env outer, h.outer? env = some outer → outer < env ∧ env < n) ∧
      ∀ env : Fin n, ∃ around : List Nat,
        h.graph.Chain (env :: around) ∧ (∀ other, h.graph.Chain (env :: other) → other = around) ∧
        (↑env :: around).Pairwise (· > ·) ∧
        (∀ name value, h.run.get? env name = some value ↔
          ∃ target, h.Exposes (env :: around) name target ∧ h.latest target name = some value) ∧
        (∀ name, h.run.get? env name = none ↔
          ∀ other ∈ ↑env :: around, h.latest other name = none) ∧
        ∀ (target : Fin n) (name : String) (value : α),
          (h.Exposes (env :: around) name target →
            (h.set target name value).run.get? env name = some value) ∧
          ∀ name', ¬(name' = name ∧ h.Exposes (env :: around) name target) →
            (h.set target name value).run.get? env name' = h.run.get? env name' := by
  refine ⟨fun env outer => h.lt_of_outer?, fun env => ⟨h.run.scopes[env].outer, ?_⟩⟩
  have hchain : h.run.scopes[env].chain = ↑env :: h.run.scopes[env].outer :=
    congrArg (· :: _) (h.records_run.frame env)
  have hlinks := h.records_run.chain env
  have hget := h.get?_run env
  have hset (target : Fin n) (name : String) (value : α) :=
    (h.set target name value).get?_run env
  change ∀ target name value name', _ = nearest? _ h.run.scopes[env].chain name' at hset
  simp only [hchain] at hlinks hget hset
  refine ⟨hlinks, fun other => hlinks.unique, h.pairwise_of_chain hlinks, fun name value => ?_,
    fun name => ?_, fun target name value => ⟨fun hexposes => ?_, fun name' hexposes => ?_⟩⟩
  · rw [hget, nearest?_eq_some_iff]
  · rw [hget, nearest?, List.findSome?_eq_none_iff]
  · rw [hset]
    exact h.nearest?_set_of_exposes value hexposes
  · rw [hset, hget]
    exact h.nearest?_set_of_not_exposes value hexposes

/-- What is set in an environment is seen from one that was made inside it before, until the name
is set there too. -/
example :
    let h := (History.empty (α := Nat)).root.enclose 0 |>.set 0 "a" 1
    h.run.get? 1 "a" = some 1 ∧ (h.set 1 "a" 2 |>.set 0 "a" 3).run.get? 1 "a" = some 2 := by
  decide

end History

end Monkey
