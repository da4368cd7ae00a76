import Mathlib.Algebra.Order.Group.Int
import Mathlib.Order.Bounds.Basic
import Mathlib.Tactic.Linarith

/-! # Arithmetic of machine words

Unsigned words are natural numbers up to a largest value `top`; signed words are
integers in a range `[low, high]`. Saturating operations stop at `top`, checked
operations return nothing when the exact result does not fit.
-/

namespace Bounded

/-! ## Saturating operations -/

section Saturating

variable (top : ℕ)

def satAdd (a b : ℕ) : ℕ := min (a + b) top

def satMul (a b : ℕ) : ℕ := min (a * b) top

variable {top}

theorem satAdd_le_top (a b : ℕ) : satAdd top a b ≤ top := Nat.min_le_right _ _

theorem satAdd_le (a b : ℕ) : satAdd top a b ≤ a + b := Nat.min_le_left _ _

theorem satMul_le (a b : ℕ) : satMul top a b ≤ a * b := Nat.min_le_left _ _

theorem satAdd_eq {a b : ℕ} (hfits : a + b ≤ top) : satAdd top a b = a + b :=
  Nat.min_eq_left hfits

theorem le_satAdd {a b c : ℕ} (htop : c ≤ top) (hle : c ≤ a + b) : c ≤ satAdd top a b :=
  Nat.le_min.mpr ⟨hle, htop⟩

theorem satAdd_mono {a a' b b' : ℕ} (ha : a ≤ a') (hb : b ≤ b') :
    satAdd top a b ≤ satAdd top a' b' :=
  min_le_min_right top (Nat.add_le_add ha hb)

/-- Saturating addition is the truncation of exact addition, so it does not
matter where along a sum the truncation happens. -/
theorem satAdd_satAdd (a b c : ℕ) : satAdd top a (satAdd top b c) = min (a + b + c) top := by
  unfold satAdd
  omega

theorem satAdd_satAdd_left (a b c : ℕ) : satAdd top (satAdd top a b) c = min (a + b + c) top := by
  unfold satAdd
  omega

theorem satAdd_right_comm (a b c : ℕ) :
    satAdd top (satAdd top a b) c = satAdd top (satAdd top a c) b := by
  rw [satAdd_satAdd_left, satAdd_satAdd_left, Nat.add_right_comm]

/-- Nor along a multiple of a sum. -/
theorem satMul_satAdd (a b : ℕ) {c : ℕ} (hpos : 0 < c) :
    satMul top (satAdd top a b) c = min ((a + b) * c) top := by
  unfold satMul satAdd
  by_cases hfits : a + b ≤ top
  · rw [min_eq_left hfits]
  · have hbig : top ≤ a + b := Nat.le_of_not_le hfits
    have htop : top ≤ top * c := Nat.le_mul_of_pos_right top hpos
    rw [min_eq_right hbig, min_eq_right htop,
      min_eq_right (htop.trans (Nat.mul_le_mul_right c hbig))]

end Saturating

/-! ## Checked operations -/

section Checked

def checkedAdd (top a b : ℕ) : Option ℕ := if a + b ≤ top then some (a + b) else none

def checkedMul (top a b : ℕ) : Option ℕ := if a * b ≤ top then some (a * b) else none

/-- A signed result that must lie in `[low, high]`. -/
def checkedInt (low high x : ℤ) : Option ℤ := if low ≤ x ∧ x ≤ high then some x else none

variable {top a b c : ℕ} {low high x y : ℤ}

@[simp] theorem checkedAdd_eq_some : checkedAdd top a b = some c ↔ a + b ≤ top ∧ c = a + b := by
  unfold checkedAdd
  split <;> simp_all [eq_comm]

@[simp] theorem checkedMul_eq_some : checkedMul top a b = some c ↔ a * b ≤ top ∧ c = a * b := by
  unfold checkedMul
  split <;> simp_all [eq_comm]

@[simp] theorem checkedMul_eq_none : checkedMul top a b = none ↔ top < a * b := by
  unfold checkedMul
  split <;> simp_all

@[simp] theorem checkedInt_eq_some :
    checkedInt low high x = some y ↔ (low ≤ x ∧ x ≤ high) ∧ y = x := by
  unfold checkedInt
  split <;> simp_all [eq_comm]

@[simp] theorem checkedInt_eq_none : checkedInt low high x = none ↔ ¬ (low ≤ x ∧ x ≤ high) := by
  unfold checkedInt
  split <;> simp_all

theorem checkedInt_of_mem (hlow : low ≤ x) (hhigh : x ≤ high) : checkedInt low high x = some x :=
  if_pos ⟨hlow, hhigh⟩

end Checked

end Bounded
