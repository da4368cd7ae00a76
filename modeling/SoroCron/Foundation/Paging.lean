import Mathlib.Data.List.Range

/-! # Reading places in pages

The places below `count` are read from pages of `step` places each. The pages follow one
another without a gap, so together they show what is at every place, once and in order.
-/

namespace Paging

variable {A : Type} {step count start : ℕ}

/-- Where the pages from `start` on begin. -/
def starts (step count start : ℕ) : List ℕ :=
  if start < count ∧ 0 < step then start :: starts step count (start + step) else []
termination_by count - start

/-- The places on the page from `start` on. -/
def places (step count start : ℕ) : List ℕ := List.range' start (min (start + step) count - start)

/-- What is at the places from `first` to before `last`. -/
def found (look : ℕ → Option A) (first last : ℕ) : List A :=
  (List.range' first (last - first)).filterMap look

theorem starts_of_lt (hstep : 0 < step) (hlt : start < count) :
    starts step count start = start :: starts step count (start + step) := by
  rw [starts, if_pos ⟨hlt, hstep⟩]

theorem starts_of_le (hle : count ≤ start) : starts step count start = [] := by
  rw [starts, if_neg fun h => Nat.not_lt.mpr hle h.1]

/-- A page and the places after it. -/
theorem places_append (hlt : start < count) :
    places step count start ++ List.range' (start + step) (count - (start + step)) =
      List.range' start (count - start) := by
  rcases Nat.le_total (start + step) count with hfull | hlast
  · have hlength : count - start = (start + step - start) + (count - (start + step)) := by omega
    rw [places, Nat.min_eq_left hfull, hlength, ← List.range'_append_1]
    congr 2
    omega
  · rw [places, Nat.min_eq_right hlast, Nat.sub_eq_zero_of_le hlast, List.range'_zero,
      List.append_nil]

/-- The pages hold every place once, in order. -/
theorem starts_flatMap_places (hstep : 0 < step) (count start : ℕ) :
    (starts step count start).flatMap (places step count) = List.range' start (count - start) := by
  induction start using starts.induct step count with
  | case1 start hmore ih =>
      rw [starts_of_lt hstep hmore.1, List.flatMap_cons, ih, places_append hmore.1]
  | case2 start hdone =>
      have hle : count ≤ start := by omega
      rw [starts_of_le hle, Nat.sub_eq_zero_of_le hle]
      rfl

/-- Reading page by page finds what a single pass finds. -/
theorem starts_flatMap_found (look : ℕ → Option A) (hstep : 0 < step) (count start : ℕ) :
    (starts step count start).flatMap (fun first => found look first (min (first + step) count)) =
      found look start count := by
  rw [found, ← starts_flatMap_places hstep, List.filterMap_flatMap]
  rfl

/-- A page behind what was found already. -/
theorem found_append (look : ℕ → Option A) {first middle last : ℕ} (hmiddle : first ≤ middle)
    (hlast : middle ≤ last) :
    found look first middle ++ found look middle last = found look first last := by
  have hlength : last - first = (middle - first) + (last - middle) := by omega
  rw [found, found, found, ← List.filterMap_append, hlength, ← List.range'_append_1,
    Nat.add_sub_cancel' hmiddle]

theorem mem_found {look : ℕ → Option A} {first last : ℕ} {a : A} :
    a ∈ found look first last ↔ ∃ place, first ≤ place ∧ place < last ∧ look place = some a := by
  have hspan : ∀ place, first ≤ place ∧ place < first + (last - first) ↔
      first ≤ place ∧ place < last := by
    intro place
    omega
  simp only [found, List.mem_filterMap, List.mem_range'_1, hspan, and_assoc]

/-- What is found stands in the order of its places. -/
theorem found_pairwise {look : ℕ → Option A} {key : A → ℕ}
    (hkey : ∀ place a, look place = some a → key a = place)
    (first last : ℕ) : (found look first last).Pairwise fun a b => key a < key b := by
  have hplaces : (List.range' first (last - first)).Pairwise (· < ·) := List.pairwise_lt_range'
  rw [found, List.pairwise_filterMap]
  apply hplaces.imp
  intro place place' hlt a ha b hb
  rw [hkey place a ha, hkey place' b hb]
  exact hlt

end Paging
