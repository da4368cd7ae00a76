import Mathlib.Algebra.Order.Group.Nat
import Mathlib.Logic.Function.Iterate
import Mathlib.Order.Basic

/-! # A moving average in whole numbers

An average is kept scaled by `k`: each step gives up a `k`-th of the scaled value, rounded
down, and adds the new sample. Under one repeated sample the value moves towards the band of
values whose `k`-th part is the sample, and stops at the nearer edge of it.
-/

namespace Settling

/-- The scaled value `x` after the sample `s`. -/
def blend (k s x : ℕ) : ℕ := x - x / k + s

/-- The value nearest to `x` whose `k`-th part is `s`. -/
def rest (k s x : ℕ) : ℕ := max (k * s) (min x (k * s + (k - 1)))

variable {k s s' x x' : ℕ}

/-! ## One step -/

theorem blend_mono (k : ℕ) (hx : x ≤ x') (hs : s ≤ s') : blend k s x ≤ blend k s' x' := by
  have hpart : x' / k ≤ x / k + (x' - x) := by
    calc x' / k = (x + (x' - x)) / k := by rw [Nat.add_sub_cancel' hx]
      _ ≤ x / k + (x' - x) := by
        rcases Nat.eq_zero_or_pos k with rfl | hpos
        · simp
        · rw [Nat.div_le_iff_le_mul_add_pred hpos, Nat.mul_add]
          have hdiv := Nat.div_add_mod x k
          have hmod := Nat.mod_lt x hpos
          have hgrow : x' - x ≤ k * (x' - x) := Nat.le_mul_of_pos_left _ hpos
          omega
  have hsmall : x / k ≤ x := Nat.div_le_self x k
  have hsmall' : x' / k ≤ x' := Nat.div_le_self x' k
  unfold blend
  omega

theorem div_eq_iff_band (hk : 0 < k) : x / k = s ↔ k * s ≤ x ∧ x ≤ k * s + (k - 1) := by
  rw [Nat.div_eq_iff hk, Nat.mul_comm]
  omega

theorem blend_eq_self (hsettled : x / k = s) : blend k s x = x := by
  have hsmall : x / k ≤ x := Nat.div_le_self x k
  unfold blend
  omega

/-- Below the band a step rises, and not beyond the lower edge. -/
theorem blend_rises (hk : 0 < k) (hlow : x / k < s) : x < blend k s x ∧ blend k s x ≤ k * s := by
  obtain ⟨gap, rfl⟩ : ∃ gap, s = x / k + 1 + gap := ⟨s - (x / k + 1), by omega⟩
  have hdiv := Nat.div_add_mod x k
  have hmod := Nat.mod_lt x hk
  have hgrow : gap ≤ k * gap := Nat.le_mul_of_pos_left gap hk
  have hexpand : k * (x / k + 1 + gap) = k * (x / k) + k + k * gap := by
    rw [Nat.mul_add, Nat.mul_add, Nat.mul_one]
  have hsmall : x / k ≤ x := Nat.div_le_self x k
  rw [hexpand]
  unfold blend
  omega

/-- Above the band a step falls, and not beyond the upper edge. -/
theorem blend_falls (hk : 0 < k) (hhigh : s < x / k) :
    blend k s x < x ∧ k * s + (k - 1) ≤ blend k s x := by
  obtain ⟨gap, hgap⟩ : ∃ gap, x / k = s + 1 + gap := ⟨x / k - (s + 1), by omega⟩
  have hdiv := Nat.div_add_mod x k
  have hgrow : gap ≤ k * gap := Nat.le_mul_of_pos_left gap hk
  have hexpand : k * (s + 1 + gap) = k * s + k + k * gap := by
    rw [Nat.mul_add, Nat.mul_add, Nat.mul_one]
  have hsmall : x / k ≤ x := Nat.div_le_self x k
  rw [hgap, hexpand] at hdiv
  unfold blend
  omega

/-! ## The resting value -/

theorem rest_div (hk : 0 < k) (s x : ℕ) : rest k s x / k = s := by
  rw [div_eq_iff_band hk]
  unfold rest
  omega

theorem rest_of_low (hk : 0 < k) (hlow : x / k < s) : rest k s x = k * s := by
  have hrises := blend_rises hk hlow
  unfold rest
  omega

theorem rest_of_high (hk : 0 < k) (hhigh : s < x / k) : rest k s x = k * s + (k - 1) := by
  have hfalls := blend_falls hk hhigh
  unfold rest
  omega

theorem rest_of_settled (hk : 0 < k) (hsettled : x / k = s) : rest k s x = x := by
  have hband := (div_eq_iff_band hk).mp hsettled
  unfold rest
  omega

/-- A step from below leads towards the resting value, and there is no going beyond it. -/
theorem blend_of_le_rest (hk : 0 < k) (hle : x ≤ rest k s x) :
    x ≤ blend k s x ∧ blend k s x ≤ rest k s x := by
  rcases Nat.lt_trichotomy (x / k) s with hlow | hsettled | hhigh
  · rw [rest_of_low hk hlow]
    exact ⟨(blend_rises hk hlow).1.le, (blend_rises hk hlow).2⟩
  · rw [blend_eq_self hsettled]
    exact ⟨le_rfl, hle⟩
  · have hfalls := blend_falls hk hhigh
    rw [rest_of_high hk hhigh] at hle
    omega

theorem blend_of_rest_le (hk : 0 < k) (hle : rest k s x ≤ x) :
    rest k s x ≤ blend k s x ∧ blend k s x ≤ x := by
  rcases Nat.lt_trichotomy (x / k) s with hlow | hsettled | hhigh
  · have hrises := blend_rises hk hlow
    rw [rest_of_low hk hlow] at hle
    omega
  · rw [blend_eq_self hsettled]
    exact ⟨hle, le_rfl⟩
  · rw [rest_of_high hk hhigh]
    exact ⟨(blend_falls hk hhigh).2, (blend_falls hk hhigh).1.le⟩

/-- A step does not change where the value will rest. -/
theorem rest_blend (hk : 0 < k) (s x : ℕ) : rest k s (blend k s x) = rest k s x := by
  rcases Nat.lt_trichotomy (x / k) s with hlow | hsettled | hhigh
  · have hrises := blend_rises hk hlow
    rw [rest_of_low hk hlow]
    unfold rest
    omega
  · rw [blend_eq_self hsettled]
  · have hfalls := blend_falls hk hhigh
    rw [rest_of_high hk hhigh]
    unfold rest
    omega

/-! ## Repeated steps -/

/-- How far `x` is from its resting value. -/
def gap (k s x : ℕ) : ℕ := (x - rest k s x) + (rest k s x - x)

theorem gap_blend (hk : 0 < k) (hunsettled : x / k ≠ s) : gap k s (blend k s x) < gap k s x := by
  unfold gap
  rw [rest_blend hk]
  rcases Nat.lt_or_gt_of_ne hunsettled with hlow | hhigh
  · have hrises := blend_rises hk hlow
    rw [rest_of_low hk hlow]
    omega
  · have hfalls := blend_falls hk hhigh
    rw [rest_of_high hk hhigh]
    omega

theorem rest_iterate (hk : 0 < k) (s x n : ℕ) : rest k s ((blend k s)^[n] x) = rest k s x := by
  induction n with
  | zero => rfl
  | succ n ih => rw [Function.iterate_succ_apply', rest_blend hk, ih]

theorem iterate_of_settled (hsettled : x / k = s) (n : ℕ) : (blend k s)^[n] x = x :=
  Function.iterate_fixed (blend_eq_self hsettled) n

/-- After as many steps as the value is away from its resting value, it rests. -/
theorem iterate_eq_rest (hk : 0 < k) {n : ℕ} (hn : gap k s x ≤ n) :
    (blend k s)^[n] x = rest k s x := by
  induction n generalizing x with
  | zero =>
      have hsame : x = rest k s x := by
        unfold gap at hn
        omega
      exact hsame
  | succ n ih =>
      by_cases hsettled : x / k = s
      · rw [iterate_of_settled hsettled, rest_of_settled hk hsettled]
      · rw [Function.iterate_succ_apply, ih (by have := gap_blend hk hsettled; omega),
          rest_blend hk]

/-- From below the values rise to the resting value and never exceed it. -/
theorem iterate_rises (hk : 0 < k) (hle : x ≤ rest k s x) (n : ℕ) :
    (blend k s)^[n] x ≤ (blend k s)^[n + 1] x ∧ (blend k s)^[n + 1] x ≤ rest k s x := by
  have hstep : ∀ n, (blend k s)^[n] x ≤ rest k s x →
      (blend k s)^[n] x ≤ (blend k s)^[n + 1] x ∧ (blend k s)^[n + 1] x ≤ rest k s x := by
    intro n hbelow
    rw [← rest_iterate hk s x n] at hbelow ⊢
    rw [Function.iterate_succ_apply']
    exact blend_of_le_rest hk hbelow
  apply hstep
  induction n with
  | zero => exact hle
  | succ n ih => exact (hstep n ih).2

/-- From above the values fall to the resting value and never get below it. -/
theorem iterate_falls (hk : 0 < k) (hle : rest k s x ≤ x) (n : ℕ) :
    rest k s x ≤ (blend k s)^[n + 1] x ∧ (blend k s)^[n + 1] x ≤ (blend k s)^[n] x := by
  have hstep : ∀ n, rest k s x ≤ (blend k s)^[n] x →
      rest k s x ≤ (blend k s)^[n + 1] x ∧ (blend k s)^[n + 1] x ≤ (blend k s)^[n] x := by
    intro n habove
    rw [← rest_iterate hk s x n] at habove ⊢
    rw [Function.iterate_succ_apply']
    exact blend_of_rest_le hk habove
  apply hstep
  induction n with
  | zero => exact hle
  | succ n ih => exact (hstep n ih).1

/-- How a value moves: from some step on it rests on `settled`, and it gets there from one
side without passing it. -/
structure ComesToRest (path : ℕ → ℕ) (settled : ℕ) : Prop where
  rests : ∃ steps, ∀ n, steps ≤ n → path n = settled
  approaches : (∀ n, path n ≤ path (n + 1) ∧ path (n + 1) ≤ settled) ∨
    (∀ n, settled ≤ path (n + 1) ∧ path (n + 1) ≤ path n)

theorem iterate_comesToRest (hk : 0 < k) (s x : ℕ) :
    ComesToRest (fun n => (blend k s)^[n] x) (rest k s x) := by
  constructor
  · refine ⟨gap k s x, ?_⟩
    intro n hn
    exact iterate_eq_rest hk hn
  · rcases Nat.le_total x (rest k s x) with hbelow | habove
    · exact .inl (iterate_rises hk hbelow)
    · exact .inr (iterate_falls hk habove)

end Settling
