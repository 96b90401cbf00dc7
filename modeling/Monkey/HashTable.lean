/-!
# Tables filed by hash key

A hash key is the kind of a value and a 64-bit number made from it. A table is
a list of keys and entries. `HashTable.insert` files an entry before the first
later key and replaces the whole entry at a key that is taken, so a table stays
strictly ascending (`HashTable.ascending_insert`). What is found under a key is
what was filed last under it (`HashTable.find?_insert`).
-/

namespace Monkey

/-- Kinds of values that can be filed, in the order in which they are filed. -/
inductive HashKey.Kind where
  | integer
  | boolean
  | string
deriving DecidableEq, Repr, Inhabited

/-- Position in the order of filing. -/
def HashKey.Kind.rank : HashKey.Kind → Nat
  | integer => 0
  | boolean => 1
  | string => 2

/-- What a value is filed under. -/
structure HashKey where
  kind : HashKey.Kind
  number : UInt64
deriving DecidableEq, Repr, Inhabited

namespace HashKey

/-- Whether `a` is filed before `b`: by kind, and within a kind by number. -/
def Before (a b : HashKey) : Prop :=
  a.kind.rank < b.kind.rank ∨ (a.kind.rank = b.kind.rank ∧ a.number < b.number)

instance (a b : HashKey) : Decidable (Before a b) :=
  inferInstanceAs (Decidable (_ ∨ _))

theorem not_before_self (a : HashKey) : ¬a.Before a := by
  simp [Before]

theorem Before.trans {a b c : HashKey} (hab : a.Before b) (hbc : b.Before c) : a.Before c := by
  unfold Before at *
  rw [UInt64.lt_iff_toNat_lt] at *
  omega

theorem Kind.eq_of_rank_eq {k l : Kind} (h : k.rank = l.rank) : k = l := by
  cases k <;> cases l <;> simp [Kind.rank] at h ⊢

/-- Of two different keys one is filed before the other. -/
theorem before_of_not_before {a b : HashKey} (h : ¬a.Before b) (hne : a ≠ b) : b.Before a := by
  obtain ⟨k, m⟩ := a
  obtain ⟨l, n⟩ := b
  by_cases hk : k.rank = l.rank
  · obtain rfl := Kind.eq_of_rank_eq hk
    have hmn : m ≠ n := fun e => hne (by rw [e])
    have hnat : m.toNat ≠ n.toNat := fun e => hmn (UInt64.toNat_inj.mp e)
    simp [Before, UInt64.lt_iff_toNat_lt] at h ⊢
    omega
  · simp only [Before] at h ⊢
    omega

/-- How two keys are ordered. -/
def compare (a b : HashKey) : Ordering :=
  if a.Before b then .lt else if a = b then .eq else .gt

end HashKey

/-- Entries under their keys. -/
abbrev HashTable (α : Type) := List (HashKey × α)

namespace HashTable

variable {α : Type}

/-- Files an entry, in place of the one that has the same key. -/
def insert (key : HashKey) (entry : α) : HashTable α → HashTable α
  | [] => [(key, entry)]
  | (other, old) :: rest =>
    if key.Before other then (key, entry) :: (other, old) :: rest
    else if key = other then (key, entry) :: rest
    else (other, old) :: insert key entry rest

/-- The entry under a key. -/
def find? (key : HashKey) : HashTable α → Option α
  | [] => none
  | (other, entry) :: rest => if other = key then some entry else find? key rest

/-- Keys stand in the order of filing, each at most once. -/
def Ascending (t : HashTable α) : Prop :=
  t.Pairwise fun a b => a.1.Before b.1

/-- Filing one more entry finds it under its key and changes nothing under others. -/
theorem find?_insert (key other : HashKey) (entry : α) (t : HashTable α) :
    find? other (insert key entry t) = if key = other then some entry else find? other t := by
  induction t with
  | nil => simp [insert, find?]
  | cons p rest ih =>
    obtain ⟨third, old⟩ := p
    unfold insert
    split
    · rfl
    split
    · next h =>
      subst h
      by_cases ho : key = other <;> simp [find?, ho]
    · next h =>
      by_cases ht : third = other
      · have hne : key ≠ other := fun e => h (e.trans ht.symm)
        simp [find?, ht, hne]
      · simp [find?, ht, ih]

/-- What is found has been filed. -/
theorem exists_mem_of_find? {key : HashKey} {entry : α} {t : HashTable α}
    (h : find? key t = some entry) : ∃ p ∈ t, p.2 = entry := by
  induction t with
  | nil => simp [find?] at h
  | cons p rest ih =>
    obtain ⟨other, old⟩ := p
    unfold find? at h
    split at h
    · exact ⟨_, List.mem_cons_self, Option.some.inj h⟩
    · obtain ⟨q, hq, heq⟩ := ih h
      exact ⟨q, List.mem_cons_of_mem _ hq, heq⟩

theorem mem_insert {key : HashKey} {entry : α} {t : HashTable α} {p : HashKey × α}
    (h : p ∈ insert key entry t) : p = (key, entry) ∨ p ∈ t := by
  induction t with
  | nil => simpa [insert] using h
  | cons q rest ih =>
    obtain ⟨other, old⟩ := q
    unfold insert at h
    split at h
    · simpa using h
    split at h
    · rcases List.mem_cons.mp h with rfl | hr
      · exact Or.inl rfl
      · exact Or.inr (List.mem_cons_of_mem _ hr)
    · rcases List.mem_cons.mp h with rfl | hr
      · exact Or.inr List.mem_cons_self
      · rcases ih hr with hp | hp
        · exact Or.inl hp
        · exact Or.inr (List.mem_cons_of_mem _ hp)

/-- Filing one more entry keeps a table ascending. -/
theorem ascending_insert (key : HashKey) (entry : α) {t : HashTable α} (h : Ascending t) :
    Ascending (insert key entry t) := by
  induction t with
  | nil => simp [insert, Ascending]
  | cons q rest ih =>
    obtain ⟨other, old⟩ := q
    obtain ⟨hfirst, hrest⟩ := List.pairwise_cons.mp h
    unfold insert
    split
    · next hlt =>
      refine List.pairwise_cons.mpr ⟨fun p hp => ?_, h⟩
      rcases List.mem_cons.mp hp with rfl | hp
      · exact hlt
      · exact hlt.trans (hfirst p hp)
    split
    · next heq =>
      subst heq
      exact List.pairwise_cons.mpr ⟨hfirst, hrest⟩
    · next hlt hne =>
      refine List.pairwise_cons.mpr ⟨fun p hp => ?_, ih hrest⟩
      rcases mem_insert hp with rfl | hp
      · exact HashKey.before_of_not_before hlt hne
      · exact hfirst p hp

end HashTable

end Monkey
