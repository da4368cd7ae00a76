import Mathlib.Data.List.Induction
import Mathlib.Data.List.Nodup

/-! # Listings

Entries under distinct keys, kept in the order in which the keys first came in. Reading after a
write, and what is listed, follow from the entries that a write leaves.
-/

structure Listing (K V : Type) where
  entries : List (K × V)
  distinct : (entries.map Prod.fst).Nodup

namespace Listing

variable {K V : Type}

instance : EmptyCollection (Listing K V) := ⟨⟨[], List.nodup_nil⟩⟩

/-- The values, in order. -/
def values (listing : Listing K V) : List V := listing.entries.map Prod.snd

variable [DecidableEq K] {listing : Listing K V} {key other : K} {value found : V}

def get (listing : Listing K V) (key : K) : Option V :=
  (listing.entries.find? fun entry => entry.1 = key).map Prod.snd

/-- The entries with the value under `key` changed, if there is one. -/
def alter (listing : Listing K V) (key : K) (change : V → V) : Listing K V where
  entries := listing.entries.map fun entry =>
    if entry.1 = key then (entry.1, change entry.2) else entry
  distinct := by
    rw [List.map_map]
    have hkeys : Prod.fst ∘ (fun entry : K ×
        V => if entry.1 = key then (entry.1, change entry.2) else entry) =
        Prod.fst := by
      funext entry
      simp only [Function.comp_apply]
      split
      · rfl
      · rfl
    rw [hkeys]
    exact listing.distinct

/-- A value under a new key goes last; under a known key it takes the old one's place. -/
def set (listing : Listing K V) (key : K) (value : V) : Listing K V :=
  if hknown : key ∈ listing.entries.map Prod.fst then
    listing.alter key fun _ => value
  else
    { entries := listing.entries ++ [(key, value)]
      distinct := by
        rw [List.map_append]
        exact List.nodup_append_comm.mp (List.nodup_cons.mpr ⟨hknown, listing.distinct⟩) }

def erase (listing : Listing K V) (key : K) : Listing K V where
  entries := listing.entries.filter fun entry => entry.1 ≠ key
  distinct := listing.distinct.sublist (List.filter_sublist.map Prod.fst)

/-! ## Entries -/

theorem get_eq_some : listing.get key = some found ↔ (key, found) ∈ listing.entries := by
  obtain ⟨entries, hdistinct⟩ := listing
  change (entries.find? fun entry => entry.1 = key).map Prod.snd = some found ↔
    (key, found) ∈ entries
  induction entries with
  | nil => simp
  | cons entry rest ih =>
      rw [List.map_cons, List.nodup_cons] at hdistinct
      by_cases heq : entry.1 = key
      · -- Distinct keys: no later entry has this one.
        have habsent : (key, found) ∉ rest := by
          intro hmem
          exact hdistinct.1 (List.mem_map.mpr ⟨_, hmem, heq.symm⟩)
        rw [List.find?_cons_of_pos (by simpa using heq), Option.map_some, Option.some.injEq,
          List.mem_cons, or_iff_left habsent]
        constructor
        · rintro rfl
          exact Prod.ext heq.symm rfl
        · intro hentry
          exact (congrArg Prod.snd hentry).symm
      · rw [List.find?_cons_of_neg (by simpa using heq), ih hdistinct.2, List.mem_cons]
        constructor
        · exact .inr
        · rintro (hentry | hmem)
          · exact absurd (congrArg Prod.fst hentry).symm heq
          · exact hmem

/-- What is read depends on the entries only. -/
theorem get_congr {read : Option V}
    (h : ∀ found, (key, found) ∈ listing.entries ↔ read = some found) : listing.get key = read := by
  apply Option.ext
  intro found
  rw [get_eq_some, h found]

theorem mem_values : found ∈ listing.values ↔ ∃ key, listing.get key = some found := by
  simp only [values, List.mem_map, get_eq_some, Prod.exists, exists_eq_right]

@[simp] theorem get_empty (key : K) : (∅ : Listing K V).get key = none := rfl

theorem get_eq_none : listing.get key = none ↔ key ∉ listing.entries.map Prod.fst := by
  rw [Option.eq_none_iff_forall_ne_some]
  simp only [List.mem_map, Prod.exists, exists_and_right, exists_eq_right, not_exists, ne_eq,
    get_eq_some]

/-! ## Reading after a write -/

@[simp] theorem get_alter_self (change : V → V) :
    (listing.alter key change).get key = (listing.get key).map change := by
  apply get_congr
  intro found
  simp only [alter, List.mem_map, Prod.exists]
  constructor
  · rintro ⟨key', value, hmem, hentry⟩
    split at hentry
    next heq =>
      cases heq
      cases hentry
      rw [get_eq_some.mpr hmem, Option.map_some]
    next hne =>
      cases hentry
      exact absurd rfl hne
  · intro hfound
    obtain ⟨value, hvalue, rfl⟩ := Option.map_eq_some_iff.mp hfound
    exact ⟨key, value, get_eq_some.mp hvalue, if_pos rfl⟩

theorem get_alter_of_ne (change : V → V) (hne : other ≠ key) :
    (listing.alter key change).get other = listing.get other := by
  apply get_congr
  intro found
  simp only [alter, List.mem_map, Prod.exists]
  constructor
  · rintro ⟨key', value, hmem, hentry⟩
    split at hentry
    next heq =>
      cases hentry
      exact absurd heq hne
    next =>
      cases hentry
      exact get_eq_some.mpr hmem
  · intro hfound
    exact ⟨other, found, get_eq_some.mp hfound, if_neg hne⟩

@[simp] theorem get_set_self : (listing.set key value).get key = some value := by
  unfold set
  split
  next hknown =>
    obtain ⟨found, hfound⟩ := Option.ne_none_iff_exists'.mp fun hnone => get_eq_none.mp hnone hknown
    rw [get_alter_self, hfound, Option.map_some]
  next => exact get_eq_some.mpr (List.mem_append_right _ List.mem_cons_self)

theorem get_set_of_ne (hne : other ≠ key) :
    (listing.set key value).get other = listing.get other := by
  unfold set
  split
  next => exact get_alter_of_ne _ hne
  next =>
    apply get_congr
    intro found
    rw [List.mem_append, List.mem_singleton, get_eq_some, or_iff_left]
    intro hentry
    exact hne (congrArg Prod.fst hentry)

@[simp] theorem get_erase_self : (listing.erase key).get key = none := by
  rw [get_eq_none]
  simp [erase]

theorem get_erase_of_ne (hne : other ≠ key) :
    (listing.erase key).get other = listing.get other := by
  apply get_congr
  intro found
  rw [erase, List.mem_filter, get_eq_some]
  simp [hne]

/-! ## Pairs one after another -/

/-- The listing after all pairs are written. -/
def ofPairs (pairs : List (K × V)) : Listing K V :=
  pairs.foldl (fun listing pair => listing.set pair.1 pair.2) ∅

omit [DecidableEq K] in
/-- The last pair under `key` says `value`. -/
def LastSaid (pairs : List (K × V)) (key : K) (value : V) : Prop :=
  ∃ before after, pairs = before ++ (key, value) :: after ∧ ∀ pair ∈ after, pair.1 ≠ key

variable {pairs : List (K × V)} {pair : K × V}

omit [DecidableEq K] in
theorem LastSaid.mem (h : LastSaid pairs key value) : (key, value) ∈ pairs := by
  obtain ⟨before, after, rfl, -⟩ := h
  exact List.mem_append_right before List.mem_cons_self

omit [DecidableEq K] in
theorem lastSaid_concat_self : LastSaid (pairs ++ [pair]) pair.1 value ↔ pair.2 = value := by
  constructor
  · rintro ⟨before, after, hsplit, hafter⟩
    cases after using List.reverseRecOn with
    | nil =>
        obtain ⟨-, hlast⟩ := List.append_inj' hsplit rfl
        exact congrArg Prod.snd (List.singleton_inj.mp hlast)
    | append_singleton after last =>
        rw [← List.cons_append, ← List.append_assoc] at hsplit
        obtain ⟨-, hlast⟩ := List.append_inj' hsplit rfl
        rw [← List.singleton_inj.mp hlast] at hafter
        exact absurd rfl (hafter pair (List.mem_append_right after List.mem_cons_self))
  · rintro rfl
    exact ⟨pairs, [], rfl, fun _ hmem => absurd hmem List.not_mem_nil⟩

omit [DecidableEq K] in
theorem lastSaid_concat_of_ne (hne : pair.1 ≠ key) :
    LastSaid (pairs ++ [pair]) key value ↔ LastSaid pairs key value := by
  constructor
  · rintro ⟨before, after, hsplit, hafter⟩
    cases after using List.reverseRecOn with
    | nil =>
        obtain ⟨-, hlast⟩ := List.append_inj' hsplit rfl
        exact absurd (congrArg Prod.fst (List.singleton_inj.mp hlast)) hne
    | append_singleton after last =>
        rw [← List.cons_append, ← List.append_assoc] at hsplit
        obtain ⟨hfirst, -⟩ := List.append_inj' hsplit rfl
        exact ⟨before, after, hfirst, fun other hmem => hafter other (List.mem_append_left _ hmem)⟩
  · rintro ⟨before, after, rfl, hafter⟩
    refine ⟨before, after ++ [pair], by rw [List.append_assoc, List.cons_append], ?_⟩
    intro other hmem
    rcases List.mem_append.mp hmem with hold | hnew
    · exact hafter other hold
    · rw [List.mem_singleton.mp hnew]
      exact hne

omit [DecidableEq K] in
/-- What came earlier does not matter. -/
theorem LastSaid.append (h : LastSaid pairs key value) (earlier : List (K × V)) :
    LastSaid (earlier ++ pairs) key value := by
  obtain ⟨before, after, rfl, hafter⟩ := h
  exact ⟨earlier ++ before, after, (List.append_assoc ..).symm, hafter⟩

theorem exists_lastSaid (hmem : (key, value) ∈ pairs) : ∃ last, LastSaid pairs key last := by
  induction pairs using List.reverseRecOn with
  | nil => exact absurd hmem List.not_mem_nil
  | append_singleton pairs pair ih =>
      by_cases heq : pair.1 = key
      · exact ⟨pair.2, heq ▸ lastSaid_concat_self.mpr rfl⟩
      · have hearlier : (key, value) ∈ pairs := by
          rcases List.mem_append.mp hmem with hold | hnew
          · exact hold
          · exact absurd (congrArg Prod.fst (List.mem_singleton.mp hnew)).symm heq
        obtain ⟨last, hlast⟩ := ih hearlier
        exact ⟨last, (lastSaid_concat_of_ne heq).mpr hlast⟩

/-- What is read under a key is what was said last. -/
theorem get_ofPairs : (ofPairs pairs).get key = some value ↔ LastSaid pairs key value := by
  induction pairs using List.reverseRecOn with
  | nil =>
      refine iff_of_false (fun hnone => by cases hnone) ?_
      rintro ⟨before, after, hsplit, -⟩
      exact absurd hsplit.symm (List.append_ne_nil_of_right_ne_nil _ (List.cons_ne_nil _ _))
  | append_singleton pairs pair ih =>
      have hlast : ofPairs (pairs ++ [pair]) = (ofPairs pairs).set pair.1 pair.2 :=
        List.foldl_append
      rw [hlast]
      by_cases heq : pair.1 = key
      · subst heq
        rw [get_set_self, lastSaid_concat_self, Option.some.injEq]
      · rw [get_set_of_ne (Ne.symm heq), lastSaid_concat_of_ne heq, ih]

/-- Nothing else can have been said last. -/
theorem LastSaid.unique {other : V} (h : LastSaid pairs key value) (h' : LastSaid pairs key other) :
    value = other :=
  Option.some.inj ((get_ofPairs.mpr h).symm.trans (get_ofPairs.mpr h'))

/-- What was said last of all was said last among the late pairs, if these say anything. -/
theorem LastSaid.of_append {earlier : List (K × V)} {other : V}
    (h : LastSaid (earlier ++ pairs) key value)
    (hmem : (key, other) ∈ pairs) : LastSaid pairs key value := by
  obtain ⟨last, hlast⟩ := exists_lastSaid hmem
  rwa [h.unique (hlast.append earlier)]

omit [DecidableEq K] in
/-- What passes a filter is a tail, if the filter passes everything after what it passes. -/
theorem exists_append_filter {l : List V} {keep : V → Bool}
    (h : l.Pairwise fun first later => keep first → keep later) :
    ∃ before, l = before ++ l.filter keep := by
  induction l with
  | nil => exact ⟨[], rfl⟩
  | cons first rest ih =>
      obtain ⟨hfirst, hrest⟩ := List.pairwise_cons.mp h
      by_cases hkeep : keep first
      · refine ⟨[], ?_⟩
        rw [List.filter_cons_of_pos hkeep, List.filter_eq_self.mpr fun later hmem =>
          hfirst later hmem hkeep]
        rfl
      · obtain ⟨before, hbefore⟩ := ih hrest
        refine ⟨first :: before, ?_⟩
        rw [List.filter_cons_of_neg hkeep, List.cons_append, ← hbefore]

end Listing
