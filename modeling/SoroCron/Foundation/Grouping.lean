import SoroCron.Foundation.Listing

/-! # Groups

Items that come in one after another, each entered into the group of its key. What a group holds in
the end follows from the items under its key alone, in their order.
-/

namespace Grouping

variable {A K V : Type} [DecidableEq K]

/-- The items under one key. -/
def share (key : A → K) (items : List A) (k : K) : List A := items.filter fun item => key item = k

/-- The item goes to its group, which it opens if it is the first. -/
def enter (key : A → K) (opened : K → V) (add : V → A → V) (groups : Listing K V) (item : A) :
    Listing K V :=
  groups.set (key item) (add ((groups.get (key item)).getD (opened (key item))) item)

def group (key : A → K) (opened : K → V) (add : V → A → V) (items : List A) : Listing K V :=
  items.foldl (enter key opened add) ∅

variable {key : A → K} {opened : K → V} {add : V → A → V} {items : List A} {k : K} {value : V}

theorem share_cons (item : A) (items : List A) : share key (item :: items) k =
    if key item = k then item :: share key items k else share key items k := by
  rw [share, List.filter_cons]
  simp only [decide_eq_true_eq]
  rfl

theorem share_concat_self (items : List A) (item : A) :
    share key (items ++ [item]) (key item) = share key items (key item) ++ [item] := by
  simp [share]

theorem share_concat_of_ne {item : A} (hne : key item ≠ k) :
    share key (items ++ [item]) k = share key items k := by
  simp [share, hne]

theorem share_eq_nil : share key items k = [] ↔ k ∉ items.map key := by
  simp [share]

/-- There is a group for every key that some item has, and it holds the items under that key. -/
theorem get_group : (group key opened add items).get k =
    if k ∈ items.map key then some ((share key items k).foldl add (opened k)) else none := by
  induction items using List.reverseRecOn with
  | nil => rfl
  | append_singleton items item ih =>
      have hlast : group key opened add (items ++ [item]) =
          enter key opened add (group key opened add items) item :=
        List.foldl_append
      rw [hlast, enter]
      by_cases heq : key item = k
      · subst heq
        have hbefore : ((group key opened add items).get (key item)).getD (opened (key item)) =
            (share key items (key item)).foldl add (opened (key item)) := by
          rw [ih]
          split
          · rfl
          next habsent => rw [share_eq_nil.mpr habsent, Option.getD_none, List.foldl_nil]
        rw [Listing.get_set_self, hbefore, share_concat_self, List.foldl_append, if_pos (by simp)]
        rfl
      · have hkeys : k ∈ (items ++ [item]).map key ↔ k ∈ items.map key := by
          simp [Ne.symm heq]
        rw [Listing.get_set_of_ne (Ne.symm heq), ih, share_concat_of_ne heq]
        simp only [hkeys]

theorem get_group_eq_some (h : (group key opened add items).get k = some value) :
    k ∈ items.map key ∧ value = (share key items k).foldl add (opened k) := by
  rw [get_group] at h
  split at h
  next hmem => exact ⟨hmem, (Option.some.inj h).symm⟩
  next => cases h

theorem mem_values_group : value ∈ (group key opened add items).values ↔
    ∃ k ∈ items.map key, (share key items k).foldl add (opened k) = value := by
  rw [Listing.mem_values]
  constructor
  · rintro ⟨k, hget⟩
    obtain ⟨hmem, rfl⟩ := get_group_eq_some hget
    exact ⟨k, hmem, rfl⟩
  · rintro ⟨k, hmem, rfl⟩
    exact ⟨k, by rw [get_group, if_pos hmem]⟩

/-- A value that names its key is listed once. -/
theorem nodup_group {f : V → K} (hopened : ∀ k, f (opened k) = k)
    (hadd : ∀ value item, f (add value item) = f value) :
    ((group key opened add items).values.map f).Nodup := by
  have hfold : ∀ (entered : List A) (value : V), f (entered.foldl add value) = f value := by
    intro entered
    induction entered with
    | nil => exact fun _ => rfl
    | cons item rest ih => exact fun value => (ih (add value item)).trans (hadd value item)
  have hnames : (group key opened add items).values.map f =
      (group key opened add items).entries.map Prod.fst := by
    rw [Listing.values, List.map_map]
    apply List.map_congr_left
    rintro ⟨k, value⟩ hmem
    obtain ⟨-, rfl⟩ := get_group_eq_some (Listing.get_eq_some.mpr hmem)
    exact (hfold _ _).trans (hopened k)
  rw [hnames]
  exact (group key opened add items).distinct

end Grouping
