import Mathlib.Algebra.BigOperators.Group.Finset.Basic
import Mathlib.Algebra.Order.BigOperators.Group.Finset
import Mathlib.Algebra.Order.Group.Int
import Mathlib.Data.Finmap
import Mathlib.Tactic.Abel

/-! # Keyed storage

A finite map from keys to values, read as `Option`. Beside the laws of reading
after a write, a store of things that carry an amount has a `total`, and writing
or removing one entry changes it by the difference of two amounts.
-/

/-- Entries under distinct keys. -/
def Store (K V : Type) : Type := Finmap fun _ : K => V

namespace Store

variable {K V : Type}

instance : EmptyCollection (Store K V) := ⟨(∅ : Finmap fun _ : K => V)⟩

variable [DecidableEq K]

def get (store : Store K V) (key : K) : Option V := Finmap.lookup key store

def set (store : Store K V) (key : K) (value : V) : Store K V := Finmap.insert key value store

def remove (store : Store K V) (key : K) : Store K V := Finmap.erase key store

def has (store : Store K V) (key : K) : Bool := (store.get key).isSome

def keys (store : Store K V) : Finset K := Finmap.keys store

/-! ## Reading after writing -/

@[simp] theorem get_empty (key : K) : (∅ : Store K V).get key = none :=
  Finmap.lookup_empty key

@[simp] theorem get_set_self (store : Store K V) (key : K) (value : V) :
    (store.set key value).get key = some value :=
  Finmap.lookup_insert store

theorem get_set_of_ne (store : Store K V) {key other : K} (value : V) (hne : other ≠ key) :
    (store.set key value).get other = store.get other :=
  Finmap.lookup_insert_of_ne store hne

theorem get_set (store : Store K V) (key other : K) (value : V) :
    (store.set key value).get other = if other = key then some value else store.get other := by
  split
  next heq => rw [heq, get_set_self]
  next hne => exact get_set_of_ne store value hne

@[simp] theorem get_remove_self (store : Store K V) (key : K) : (store.remove key).get key = none :=
  Finmap.lookup_erase key store

theorem get_remove_of_ne (store : Store K V) {key other : K} (hne : other ≠ key) :
    (store.remove key).get other = store.get other :=
  Finmap.lookup_erase_ne hne

theorem get_remove (store : Store K V) (key other : K) :
    (store.remove key).get other = if other = key then none else store.get other := by
  split
  next heq => rw [heq, get_remove_self]
  next hne => exact get_remove_of_ne store hne

@[ext] theorem ext {left right : Store K V} (hget : ∀ key, left.get key = right.get key) :
    left = right :=
  Finmap.ext_lookup hget

@[simp] theorem set_set (store : Store K V) (key : K) (value value' : V) :
    (store.set key value).set key value' = store.set key value' :=
  Finmap.insert_insert store

theorem mem_keys {store : Store K V} {key : K} : key ∈ store.keys ↔ (store.get key).isSome :=
  Finmap.mem_keys.trans Finmap.lookup_isSome.symm

theorem notMem_keys {store : Store K V} {key : K} : key ∉ store.keys ↔ store.get key = none := by
  rw [mem_keys, Option.not_isSome_iff_eq_none]

theorem keys_set (store : Store K V) (key : K) (value : V) :
    (store.set key value).keys = insert key store.keys := by
  ext other
  by_cases heq : other = key <;> simp [mem_keys, get_set, heq]

theorem keys_remove (store : Store K V) (key : K) :
    (store.remove key).keys = store.keys.erase key := by
  ext other
  by_cases heq : other = key <;> simp [mem_keys, get_remove, heq]

/-! ## Totals -/

/-- What the entry under `key` contributes to a total, nothing when there is no entry. -/
def amount (f : V → ℤ) (store : Store K V) (key : K) : ℤ := ((store.get key).map f).getD 0

/-- The sum over all entries of the amount each carries. -/
def total (f : V → ℤ) (store : Store K V) : ℤ := ∑ key ∈ store.keys, store.amount f key

section Totals

variable {f : V → ℤ}

theorem amount_of_get {store : Store K V} {key : K} {value : V}
    (hget : store.get key = some value) : store.amount f key = f value := by
  simp [amount, hget]

theorem amount_of_none {store : Store K V} {key : K} (hget : store.get key = none) :
    store.amount f key = 0 := by
  simp [amount, hget]

@[simp] theorem total_empty : (∅ : Store K V).total f = 0 := by
  have hkeys : (∅ : Store K V).keys = ∅ := Finmap.keys_empty
  rw [total, hkeys, Finset.sum_empty]

/-- A total over any set of keys that covers the store. -/
theorem total_eq_sum_of_subset {store : Store K V} {keys : Finset K} (hsub : store.keys ⊆ keys) :
    store.total f = ∑ key ∈ keys, store.amount f key := by
  apply Finset.sum_subset hsub
  intro key _ hnot
  exact amount_of_none (notMem_keys.mp hnot)

theorem total_eq_add (store : Store K V) (key : K) :
    store.total f = store.amount f key + ∑ other ∈ store.keys.erase key, store.amount f other := by
  rw [total_eq_sum_of_subset (Finset.subset_insert key store.keys),
    ← Finset.insert_erase (Finset.mem_insert_self key store.keys),
    Finset.sum_insert (Finset.notMem_erase key _), Finset.erase_insert_eq_erase]

theorem total_set (store : Store K V) (key : K) (value : V) :
    (store.set key value).total f = store.total f - store.amount f key + f value := by
  rw [total_eq_add _ key, total_eq_add store key, keys_set, Finset.erase_insert_eq_erase,
    amount_of_get (get_set_self store key value)]
  have hrest : ∑ other ∈ store.keys.erase key, (store.set key value).amount f other =
      ∑ other ∈ store.keys.erase key, store.amount f other := by
    apply Finset.sum_congr rfl
    intro other hother
    rw [amount, get_set_of_ne store value (Finset.ne_of_mem_erase hother), amount]
  rw [hrest]
  abel

theorem total_remove (store : Store K V) (key : K) :
    (store.remove key).total f = store.total f - store.amount f key := by
  rw [total_eq_add _ key, total_eq_add store key, keys_remove, Finset.erase_idem,
    amount_of_none (get_remove_self store key)]
  have hrest : ∑ other ∈ store.keys.erase key, (store.remove key).amount f other =
      ∑ other ∈ store.keys.erase key, store.amount f other := by
    apply Finset.sum_congr rfl
    intro other hother
    rw [amount, get_remove_of_ne store (Finset.ne_of_mem_erase hother), amount]
  rw [hrest]
  abel

/-- Stores that carry the same amounts have the same total. -/
theorem total_congr {left right : Store K V}
    (hamount : ∀ key, left.amount f key = right.amount f key)
    (hkeys : left.keys = right.keys) : left.total f = right.total f := by
  rw [total, total, hkeys]
  exact Finset.sum_congr rfl fun key _ => hamount key

theorem amount_nonneg {store : Store K V}
    (hnonneg : ∀ key value, store.get key = some value → 0 ≤ f value)
    (key : K) : 0 ≤ store.amount f key := by
  cases hget : store.get key with
  | none => rw [amount_of_none hget]
  | some value =>
      rw [amount_of_get hget]
      exact hnonneg key value hget

theorem total_nonneg {store : Store K V}
    (hnonneg : ∀ key value, store.get key = some value → 0 ≤ f value) : 0 ≤ store.total f :=
  Finset.sum_nonneg fun key _ => amount_nonneg hnonneg key

/-- With no negative entries, every entry is covered by the total. -/
theorem le_total {store : Store K V}
    (hnonneg : ∀ key value, store.get key = some value → 0 ≤ f value)
    {key : K} {value : V} (hget : store.get key = some value) : f value ≤ store.total f := by
  rw [← amount_of_get (f := f) hget]
  apply Finset.single_le_sum (fun other _ => amount_nonneg hnonneg other)
  rw [mem_keys, hget]
  rfl

end Totals

end Store
