import Mathlib.Data.List.Dedup
import Mathlib.Data.List.Induction
import Mathlib.Data.List.Sort
import Monkey.Evaluator

/-!
# Hashes

A hash literal files its pairs one after the other, so its value is a table that was made by
filing entries in order (`HashTable.ofList`). What is found in it under a key is the last entry
that was filed under the key (`HashTable.find?_ofList`), and a table in which keys ascend is
known from what is found in it (`HashTable.ext_of_find?`). So only the last entry under each key
counts, and the order in which different keys come does not (`hash_canonical`).

In terms of the language: a hash literal is a finite map in which the last pair under a key wins
(`runExpr_hash`). Keys are the same if their hash keys are the same, which for integers and
booleans means that they are equal and for strings that their digests are.
-/

namespace Monkey

namespace HashTable

variable {α : Type}

/-! ## Tables made by filing entries -/

/-- Files entries in order, the first one in an empty table. -/
def ofList (es : List (HashKey × α)) : HashTable α :=
  es.foldl (fun t e => insert e.1 e.2 t) []

/-- The last entry under a key. -/
def last? (key : HashKey) (es : List (HashKey × α)) : Option α :=
  (es.reverse.find? fun e => e.1 = key).map Prod.snd

@[simp] theorem ofList_concat (es : List (HashKey × α)) (e : HashKey × α) :
    ofList (es ++ [e]) = insert e.1 e.2 (ofList es) := by
  simp [ofList]

@[simp] theorem last?_concat (key : HashKey) (es : List (HashKey × α)) (e : HashKey × α) :
    last? key (es ++ [e]) = if e.1 = key then some e.2 else last? key es := by
  by_cases h : e.1 = key <;> simp [last?, h]

theorem ascending_ofList (es : List (HashKey × α)) : Ascending (ofList es) := by
  induction es using List.reverseRecOn with
  | nil => exact List.Pairwise.nil
  | append_singleton es e ih =>
    rw [ofList_concat]
    exact ascending_insert _ _ ih

/-- What is found under a key is what was filed last under it. -/
theorem find?_ofList (key : HashKey) (es : List (HashKey × α)) :
    find? key (ofList es) = last? key es := by
  induction es using List.reverseRecOn with
  | nil => rfl
  | append_singleton es e ih => rw [ofList_concat, last?_concat, find?_insert, ih]

/-! ## Ascending tables -/

theorem nodup_keys {t : HashTable α} (h : Ascending t) : (t.map Prod.fst).Nodup := by
  rw [List.nodup_iff_pairwise_ne, List.pairwise_map]
  refine h.imp fun {a b} hab heq => ?_
  rw [heq] at hab
  exact HashKey.not_before_self _ hab

/-- In an ascending table an entry is found under its key. -/
theorem find?_eq_some_iff {t : HashTable α} (h : Ascending t) {key : HashKey} {entry : α} :
    find? key t = some entry ↔ (key, entry) ∈ t := by
  induction t with
  | nil => simp [find?]
  | cons p rest ih =>
    obtain ⟨other, old⟩ := p
    obtain ⟨hfirst, hrest⟩ := List.pairwise_cons.mp h
    rw [find?, List.mem_cons, Prod.mk.injEq]
    split
    · next heq =>
      subst heq
      have hnot : (other, entry) ∉ rest := fun hmem =>
        HashKey.not_before_self other (hfirst (other, entry) hmem)
      simp [hnot, eq_comm]
    · next hne => simp [ih hrest, Ne.symm hne]

/-- An ascending table is known from what is found in it. -/
theorem ext_of_find? {s t : HashTable α} (hs : Ascending s) (ht : Ascending t)
    (h : ∀ key, find? key s = find? key t) : s = t := by
  have hirrefl : Std.Irrefl fun a b : HashKey × α => a.1.Before b.1 :=
    ⟨fun a => HashKey.not_before_self a.1⟩
  have hantisymm : Std.Antisymm fun a b : HashKey × α => a.1.Before b.1 :=
    ⟨fun a b hab hba => absurd (hab.trans hba) (HashKey.not_before_self a.1)⟩
  refine List.Pairwise.eq_of_mem_iff hs ht fun ⟨key, entry⟩ => ?_
  rw [← find?_eq_some_iff hs, ← find?_eq_some_iff ht, h]

/-- Only the last entry under each key counts. -/
theorem ofList_congr {es ds : List (HashKey × α)} (h : ∀ key, last? key ds = last? key es) :
    ofList ds = ofList es := by
  refine ext_of_find? (ascending_ofList ds) (ascending_ofList es) fun key => ?_
  rw [find?_ofList, find?_ofList, h]

/-! ## The last entry under a key -/

theorem last?_of_split {key : HashKey} {entry : α} {before after : List (HashKey × α)}
    (h : ∀ e ∈ after, e.1 ≠ key) : last? key (before ++ (key, entry) :: after) = some entry := by
  have hafter : after.reverse.find? (fun e => e.1 = key) = none := by
    simpa using h
  simp [last?, List.find?_append, hafter]

theorem last?_eq_none_iff {key : HashKey} {es : List (HashKey × α)} :
    last? key es = none ↔ key ∉ es.map Prod.fst := by
  simp only [last?, Option.map_eq_none_iff, List.find?_eq_none, List.mem_reverse,
    decide_eq_true_eq, List.mem_map, not_exists, not_and]

/-- If no key comes twice, the last entry under a key is the one that there is. -/
theorem last?_eq_some_iff_of_nodup {es : List (HashKey × α)} (h : (es.map Prod.fst).Nodup)
    {key : HashKey} {entry : α} : last? key es = some entry ↔ (key, entry) ∈ es := by
  constructor
  · intro hlast
    obtain ⟨e, he, rfl⟩ := Option.map_eq_some_iff.mp hlast
    have hkey : e.1 = key := by simpa using List.find?_some he
    have hmem := List.mem_reverse.mp (List.mem_of_find?_eq_some he)
    rwa [← hkey]
  · intro hmem
    obtain ⟨before, after, rfl⟩ := List.append_of_mem hmem
    refine last?_of_split fun e he heq => ?_
    rw [List.map_append, List.map_cons, List.nodup_append] at h
    exact (List.nodup_cons.mp h.2.1).1 (List.mem_map.mpr ⟨e, he, heq⟩)

theorem mem_ofList_iff {es : List (HashKey × α)} {key : HashKey} {entry : α} :
    (key, entry) ∈ ofList es ↔ last? key es = some entry := by
  rw [← find?_eq_some_iff (ascending_ofList es), find?_ofList]

theorem mem_of_mem_ofList {es : List (HashKey × α)} {e : HashKey × α} (h : e ∈ ofList es) :
    e ∈ es := by
  induction es using List.reverseRecOn with
  | nil => exact h
  | append_singleton es f ih =>
    rw [ofList_concat] at h
    rcases mem_insert h with rfl | h
    · exact List.mem_append_right _ List.mem_cons_self
    · exact List.mem_append_left _ (ih h)

/-- The keys of a table are those under which something was filed. -/
theorem mem_keys_ofList {es : List (HashKey × α)} {key : HashKey} :
    key ∈ (ofList es).map Prod.fst ↔ key ∈ es.map Prod.fst := by
  have hexists : key ∈ (ofList es).map Prod.fst ↔ ∃ entry, last? key es = some entry := by
    simp [← mem_ofList_iff]
  rw [hexists, ← Option.ne_none_iff_exists', ne_eq, last?_eq_none_iff, not_not]

/-- A table has as many entries as different keys were filed. -/
theorem length_ofList (es : List (HashKey × α)) :
    (ofList es).length = (es.map Prod.fst).dedup.length := by
  have hperm : ((ofList es).map Prod.fst).Perm (es.map Prod.fst).dedup := by
    rw [List.perm_ext_iff_of_nodup (nodup_keys (ascending_ofList es)) (List.nodup_dedup _)]
    intro key
    rw [mem_keys_ofList, List.mem_dedup]
  simpa using hperm.length_eq

section Distinct

variable {es ds : List (HashKey × α)} (hdistinct : (es.map Prod.fst).Nodup)

include hdistinct

/-- If no key comes twice, the table has the entries that were filed. -/
theorem perm_ofList : (ofList es).Perm es := by
  rw [List.perm_ext_iff_of_nodup (nodup_keys (ascending_ofList es)).of_map hdistinct.of_map]
  rintro ⟨key, entry⟩
  rw [mem_ofList_iff, last?_eq_some_iff_of_nodup hdistinct]

/-- If no key comes twice, the order of filing makes no difference. -/
theorem ofList_perm (hperm : ds.Perm es) : ofList ds = ofList es := by
  have hdistinct' : (ds.map Prod.fst).Nodup := (hperm.map Prod.fst).nodup_iff.mpr hdistinct
  refine ofList_congr fun key => Option.ext fun entry => ?_
  rw [last?_eq_some_iff_of_nodup hdistinct, last?_eq_some_iff_of_nodup hdistinct', hperm.mem_iff]

end Distinct

end HashTable

/-! ## Hash keys -/

namespace Value

theorem hashKey?_integer_inj {a b : Int64} :
    (integer a).hashKey? = (integer b).hashKey? ↔ a = b := by
  refine ⟨fun h => ?_, fun h => h ▸ rfl⟩
  have hbits : a.toUInt64 = b.toUInt64 := by simpa [hashKey?] using h
  exact congrArg Int64.ofUInt64 hbits

theorem hashKey?_boolean_inj {a b : Bool} :
    (boolean a).hashKey? = (boolean b).hashKey? ↔ a = b := by
  cases a <;> cases b <;> decide

theorem hashKey?_string_iff {s t : String} :
    (string s).hashKey? = (string t).hashKey? ↔ Digest.ofString s = Digest.ofString t := by
  simp [hashKey?]

/-- A hash key tells of what kind the value is. -/
theorem kind_of_hashKey? {v : Value} {key : HashKey} (h : v.hashKey? = some key) :
    v.kind = Kind.ofKey key.kind := by
  cases v <;> simp [hashKey?] at h <;> subst h <;> rfl

theorem isSignal_of_hashKey? {v : Value} {key : HashKey} (h : v.hashKey? = some key) :
    v.isSignal = false := by
  cases v <;> first | rfl | cases h

end Value

/-! ## Hash literals -/

namespace Evaluator

variable {e : Evaluator}

theorem runExpr_eq_value_iff {x : Expr} {scope : Scope} {m m' : Machine} {v : Value} :
    e.runExpr x scope m = (.value v, m') ↔ x.eval e.library e.apply scope m = .ok v m' := by
  unfold runExpr finish
  split
  · next h => simp [h]
  · next h => simp [h]

/-- `e.GivesEntries scope pairs m es m'`: evaluated in order, the key before the value, each where
the one before it has left the machine, the pairs of a hash literal give the entries `es`. No
value is a signal, and every key has a hash key. -/
inductive GivesEntries (e : Evaluator) (scope : Scope) :
    List (Expr × Expr) → Machine → List (HashKey × Value × Value) → Machine → Prop
  | nil (m : Machine) : GivesEntries e scope [] m [] m
  | cons {key value : Expr} {pairs : List (Expr × Expr)} {m₀ m₁ m₂ m₃ : Machine} {k v : Value}
      {filed : HashKey} {es : List (HashKey × Value × Value)}
      (hkey : e.runExpr key scope m₀ = (.value k, m₁)) (hfiled : k.hashKey? = some filed)
      (hvalue : e.runExpr value scope m₁ = (.value v, m₂)) (hsignal : v.isSignal = false)
      (hrest : GivesEntries e scope pairs m₂ es m₃) :
      GivesEntries e scope ((key, value) :: pairs) m₀ ((filed, k, v) :: es) m₃

theorem GivesEntries.evalPairs {scope : Scope} {pairs : List (Expr × Expr)} {m m' : Machine}
    {es : List (HashKey × Value × Value)} (h : e.GivesEntries scope pairs m es m') :
    ∀ t, Expr.evalPairs e.library e.apply pairs t scope m =
      .ok (.ok (es.foldl (fun t e => HashTable.insert e.1 e.2 t) t)) m' := by
  induction h with
  | nil m => exact fun t => rfl
  | cons hkey hfiled hvalue hsignal hrest ih =>
    intro t
    rw [runExpr_eq_value_iff] at hkey hvalue
    rw [Expr.evalPairs]
    simp only [bind, EStateM.bind, hkey, Value.isSignal_of_hashKey? hfiled, hfiled, hvalue,
      hsignal, Bool.false_eq_true, if_false]
    exact ih _

/-- A hash literal gives the table of its pairs. -/
theorem GivesEntries.runExpr {scope : Scope} {pairs : List (Expr × Expr)} {m m' : Machine}
    {es : List (HashKey × Value × Value)} (h : e.GivesEntries scope pairs m es m') (token : Token) :
    e.runExpr (.hash token pairs) scope m = (.value (.hash (HashTable.ofList es)), m') := by
  rw [runExpr_eq_value_iff, Expr.eval]
  simp only [bind, EStateM.bind, h.evalPairs []]
  rfl

/-- The entries of a hash literal are filed under the hash keys of their own keys. -/
theorem GivesEntries.filed {scope : Scope} {pairs : List (Expr × Expr)} {m m' : Machine}
    {es : List (HashKey × Value × Value)} (h : e.GivesEntries scope pairs m es m') :
    ∀ entry ∈ es, entry.2.1.hashKey? = some entry.1 := by
  induction h with
  | nil m => simp
  | cons hkey hfiled hvalue hsignal hrest ih =>
    intro entry hentry
    rcases List.mem_cons.mp hentry with rfl | hentry
    · exact hfiled
    · exact ih entry hentry

end Evaluator

/-- A table is the finite map that some entries make, the later ones over the earlier ones. -/
structure Value.LastWins (es table : List (HashKey × Value × Value)) : Prop where
  /-- No hash key has two entries. -/
  once : (table.map Prod.fst).Nodup
  /-- The hash keys that have an entry. -/
  keys : ∀ key, key ∈ table.map Prod.fst ↔ key ∈ es.map Prod.fst
  /-- The key that is stored has the hash key that it is stored under. -/
  stored : ∀ entry ∈ table, entry.2.1.hashKey? = some entry.1
  /-- The last entry under a hash key is the one that is there, key and value. -/
  kept : ∀ before entry after, es = before ++ entry :: after →
    (∀ later ∈ after, later.1 ≠ entry.1) → entry ∈ table
  /-- Indexing gives the value of the last entry under the hash key. -/
  found : ∀ before entry after, es = before ++ entry :: after →
    (∀ later ∈ after, later.1 ≠ entry.1) →
      ∀ q : Value, q.hashKey? = some entry.1 → index (.hash table) q = entry.2.2
  /-- Indexing gives null if there is no entry under the hash key. -/
  missing : ∀ key, key ∉ es.map Prod.fst →
    ∀ q : Value, q.hashKey? = some key → index (.hash table) q = .null
  /-- The length is the number of different hash keys. -/
  size : ∀ library : Library, (library.call .len [.hash table]).value =
    .integer (Int64.ofNat (es.map Prod.fst).dedup.length)

namespace Value

theorem index_ofList (es : List (HashKey × Value × Value)) {q : Value} {key : HashKey}
    (h : q.hashKey? = some key) :
    index (.hash (HashTable.ofList es)) q = ((HashTable.last? key es).map Prod.snd).getD null := by
  show filedUnder (HashTable.ofList es) q = _
  rw [filedUnder, h]
  show ((HashTable.find? key (HashTable.ofList es)).map _).getD null = _
  rw [HashTable.find?_ofList]

theorem lastWins_ofList {es : List (HashKey × Value × Value)}
    (h : ∀ entry ∈ es, entry.2.1.hashKey? = some entry.1) : LastWins es (HashTable.ofList es) where
  once := HashTable.nodup_keys (HashTable.ascending_ofList es)
  keys _ := HashTable.mem_keys_ofList
  stored entry hentry := h entry (HashTable.mem_of_mem_ofList hentry)
  kept before entry after hes hafter := by
    rw [hes]
    exact HashTable.mem_ofList_iff.mpr (HashTable.last?_of_split hafter)
  found before entry after hes hafter q hq := by
    rw [index_ofList es hq, hes, HashTable.last?_of_split hafter]
    rfl
  missing key hkey q hq := by
    rw [index_ofList es hq, HashTable.last?_eq_none_iff.mpr hkey]
    rfl
  size library := by
    rw [← HashTable.length_ofList]
    rfl

end Value

/-- **A hash literal is a finite map in which the last pair wins.** If its keys and values are
evaluated without a signal and the keys can be filed, a hash literal gives a hash with one entry
for each hash key, the last pair under it. Two integers have the same hash key if they are equal,
and so have two booleans, two strings have the same one if they have the same digest, and values
of different kinds never have the same one. -/
theorem runExpr_hash {e : Evaluator} {scope : Scope} {pairs : List (Expr × Expr)}
    {m m' : Machine} {es : List (HashKey × Value × Value)}
    (h : e.GivesEntries scope pairs m es m') (token : Token) :
    (∃ table, e.runExpr (.hash token pairs) scope m = (.value (.hash table), m') ∧
      Value.LastWins es table) ∧
      (∀ a b, (Value.integer a).hashKey? = (Value.integer b).hashKey? ↔ a = b) ∧
      (∀ a b, (Value.boolean a).hashKey? = (Value.boolean b).hashKey? ↔ a = b) ∧
      (∀ s t, (Value.string s).hashKey? = (Value.string t).hashKey? ↔
        Digest.ofString s = Digest.ofString t) ∧
      ∀ (u v : Value) (key : HashKey), u.kind ≠ v.kind → u.hashKey? = some key →
        v.hashKey? ≠ some key := by
  refine ⟨⟨_, h.runExpr token, Value.lastWins_ofList h.filed⟩,
    fun _ _ => Value.hashKey?_integer_inj, fun _ _ => Value.hashKey?_boolean_inj,
    fun _ _ => Value.hashKey?_string_iff, fun u v key hkind hu hv => hkind ?_⟩
  rw [Value.kind_of_hashKey? hu, Value.kind_of_hashKey? hv]

/-- In the literal `{1: "a", true: 2, 1: "b"}` the keys `1` and `true` have the same number but
different kinds, and the last pair is the one that is found under `1`. -/
theorem runExpr_hash_repeated :
    let pairs : List (Expr × Expr) := [(.integer default 1, .string default "a"),
      (.boolean default true, .integer default 2), (.integer default 1, .string default "b")]
    let es : List (HashKey × Value × Value) := [(⟨.integer, 1⟩, .integer 1, .string "a"),
      (⟨.boolean, 1⟩, .boolean true, .integer 2), (⟨.integer, 1⟩, .integer 1, .string "b")]
    (Evaluator.standard 0).GivesEntries ⟨0, []⟩ pairs Machine.new es Machine.new ∧
      ∃ table, (Evaluator.standard 0).runExpr (.hash default pairs) ⟨0, []⟩ Machine.new =
          (.value (.hash table), Machine.new) ∧
        Value.index (.hash table) (.integer 1) = .string "b" ∧
        Value.index (.hash table) (.integer (-1)) = .null ∧
        (Library.standard.call .len [.hash table]).value = .integer 2 := by
  intro pairs es
  have hgives : (Evaluator.standard 0).GivesEntries ⟨0, []⟩ pairs Machine.new es Machine.new :=
    .cons rfl rfl rfl rfl (.cons rfl rfl rfl rfl (.cons rfl rfl rfl rfl (.nil _)))
  obtain ⟨⟨table, hrun, hwins⟩, -⟩ := runExpr_hash hgives default
  refine ⟨hgives, table, hrun, hwins.found (es.take 2) _ [] rfl nofun _ rfl, ?_, hwins.size _⟩
  exact hwins.missing ⟨.integer, -1⟩ (by decide) _ rfl

/-- **Hashes are canonical.** What a hash literal gives is the table of its entries, in which keys
stand in strictly ascending order. The table is the same for other entries if the last one under
each hash key is the same, and so are its text and its outline. If no hash key comes twice, the
table has the entries that were filed, and they may be filed in any order. -/
theorem hash_canonical (es : List (HashKey × Value × Value)) :
    (∀ (e : Evaluator) (scope : Scope) (pairs : List (Expr × Expr)) (m m' : Machine)
      (token : Token), e.GivesEntries scope pairs m es m' →
        e.runExpr (.hash token pairs) scope m = (.value (.hash (HashTable.ofList es)), m')) ∧
      HashTable.Ascending (HashTable.ofList es) ∧
      ((es.map Prod.fst).Nodup → (HashTable.ofList es).Perm es) ∧
      ∀ ds, ((es.map Prod.fst).Nodup ∧ ds.Perm es ∨
          ∀ key, HashTable.last? key ds = HashTable.last? key es) →
        HashTable.ofList ds = HashTable.ofList es ∧
          (Value.hash (HashTable.ofList ds)).render = (Value.hash (HashTable.ofList es)).render ∧
          (Value.hash (HashTable.ofList ds)).outline =
            (Value.hash (HashTable.ofList es)).outline := by
  refine ⟨fun _ _ _ _ _ token h => h.runExpr token, HashTable.ascending_ofList es,
    HashTable.perm_ofList, fun ds h => ?_⟩
  have htable : HashTable.ofList ds = HashTable.ofList es := by
    rcases h with ⟨hdistinct, hperm⟩ | hlast
    · exact HashTable.ofList_perm hdistinct hperm
    · exact HashTable.ofList_congr hlast
  rw [htable]
  exact ⟨rfl, rfl, rfl⟩

/-- The keys `-1`, `true` and `1`, filed in this order and the other way round. The table starts
with `1` and ends with `true`, because the number of `-1` is the largest one. -/
theorem hash_canonical_reverse :
    let es : List (HashKey × Value × Value) := [(⟨.integer, -1⟩, .integer (-1), .null),
      (⟨.boolean, 1⟩, .boolean true, .null), (⟨.integer, 1⟩, .integer 1, .null)]
    (es.map Prod.fst).Nodup ∧ HashTable.ofList es.reverse = HashTable.ofList es ∧
      (HashTable.ofList es).map Prod.fst = [⟨.integer, 1⟩, ⟨.integer, -1⟩, ⟨.boolean, 1⟩] := by
  intro es
  have hdistinct : (es.map Prod.fst).Nodup := by decide
  have hsame := (hash_canonical es).2.2.2 es.reverse (.inl ⟨hdistinct, es.reverse_perm⟩)
  exact ⟨hdistinct, hsame.1, rfl⟩

end Monkey
