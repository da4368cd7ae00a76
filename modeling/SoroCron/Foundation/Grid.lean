import Mathlib.Order.Bounds.Basic
import Mathlib.Tactic.Ring

/-! # Times on an arithmetic grid

The points `start + k * step` after a given moment, and the points of a residue class
at or after it. Both come with the statement that the computed point is the least one.
-/

namespace Grid

/-! ## Stepping past a moment -/

section Next

variable {start step now : ℕ}

/-- The points one or more steps after `start` that lie after `now`. -/
def After (start step now : ℕ) : Set ℕ := {t | (∃ k, 1 ≤ k ∧ t = start + k * step) ∧ now < t}

def next (start step now : ℕ) : ℕ := start + ((now - start) / step + 1) * step

theorem lt_next (hstep : 0 < step) : now < next start step now := by
  have hdiv := Nat.div_add_mod (now - start) step
  have hmod := Nat.mod_lt (now - start) hstep
  have hexpand : ((now - start) / step + 1) * step = step * ((now - start) / step) + step := by ring
  unfold next
  omega

theorem start_lt_next (hstep : 0 < step) : start < next start step now := by
  have hpos : 0 < ((now - start) / step + 1) * step := Nat.mul_pos (Nat.succ_pos _) hstep
  unfold next
  omega

theorem next_isLeast (hstep : 0 < step) : IsLeast (After start step now) (next start step now) := by
  refine ⟨⟨⟨(now - start) / step + 1, Nat.le_add_left 1 _, rfl⟩, lt_next hstep⟩, ?_⟩
  rintro t ⟨⟨k, hk, rfl⟩, hlater⟩
  have hquot : (now - start) / step + 1 ≤ k := by
    by_contra hsmall
    have hle : k ≤ (now - start) / step := by omega
    have hmul : k * step ≤ now - start := (Nat.le_div_iff_mul_le hstep).mp hle
    have hkpos : 0 < k * step := Nat.mul_pos hk hstep
    omega
  have hmul := Nat.mul_le_mul_right step hquot
  unfold next
  omega

/-- Stepping stays in the residue class of any divisor of the step. -/
theorem next_mod {period : ℕ} (hdvd : period ∣ step) :
    next start step now % period = start % period := by
  unfold next
  obtain ⟨factor, rfl⟩ := hdvd
  rw [Nat.mul_comm, Nat.mul_assoc, Nat.add_mul_mod_self_left]

end Next

/-! ## First point of a residue class -/

section Ceil

variable {period offset start : ℕ}

/-- The points of the residue class `offset` modulo `period` at or after `start`. -/
def From (period offset start : ℕ) : Set ℕ := {t | t % period = offset ∧ start ≤ t}

def ceil (period offset start : ℕ) : ℕ :=
  if start % period ≤ offset then
    start - start % period + offset
  else
    start - start % period + period + offset

theorem ceil_mod (hoffset : offset < period) : ceil period offset start % period = offset := by
  have hfloor : start - start % period = period * (start / period) := by
    have := Nat.div_add_mod start period
    omega
  unfold ceil
  split
  · rw [hfloor, Nat.mul_add_mod, Nat.mod_eq_of_lt hoffset]
  · rw [hfloor, Nat.add_assoc, Nat.mul_add_mod, Nat.add_mod_left, Nat.mod_eq_of_lt hoffset]

theorem le_ceil (offset : ℕ) (hperiod : 0 < period) : start ≤ ceil period offset start := by
  have hmod := Nat.mod_lt start hperiod
  have hle := Nat.mod_le start period
  unfold ceil
  split <;> omega

theorem ceil_isLeast (hoffset : offset < period) :
    IsLeast (From period offset start) (ceil period offset start) := by
  have hpos : 0 < period := Nat.zero_lt_of_lt hoffset
  refine ⟨⟨ceil_mod hoffset, le_ceil offset hpos⟩, ?_⟩
  rintro t ⟨hmod, hle⟩
  have hquot : start / period ≤ t / period := Nat.div_le_div_right hle
  have ht := Nat.div_add_mod t period
  have hs := Nat.div_add_mod start period
  have hmono := Nat.mul_le_mul_left period hquot
  unfold ceil
  split
  · omega
  next hpast =>
    -- The class has no point left in the period of `start`, so `t` is in a later one.
    have hlater : start / period + 1 ≤ t / period := by
      by_contra hsmall
      have heq : t / period = start / period := by omega
      rw [heq] at ht
      omega
    have hstep := Nat.mul_le_mul_left period hlater
    rw [Nat.mul_add, Nat.mul_one] at hstep
    omega

end Ceil

end Grid
