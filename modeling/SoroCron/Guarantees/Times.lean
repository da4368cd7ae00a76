import SoroCron.Guarantees.Calendar

/-! # When a job runs next

Over all of `u64`, the next run after a run is the next point of its grid, and a calendar's first
run is the next time on the wall clock; both stop at the largest time. One input makes the step
count overflow before anything could saturate.
-/

namespace SoroCron

open Bounded

/-! ## After a run -/

/-- `nextRunAfter` returns, and what it returns is exact. -/
def ExactNext (scheduled interval now : ℕ) : Prop :=
  ∃ next, nextRunAfter scheduled interval now = some next ∧
    (interval = 0 → next = max scheduled now) ∧
    (1 ≤ interval → ∃ least, IsLeast (Grid.After scheduled interval now) least ∧
      next = if least ≤ u64Max then least else u64Max) ∧
    scheduled ≤ next ∧ now ≤ next

/-- The job was due at time `0`, runs every second, and is run at the end of time. -/
def StepsOverflow (scheduled interval now : ℕ) : Prop := interval = 1 ∧ scheduled = 0 ∧ now = u64Max

theorem nextRunAfter_exact_iff {scheduled interval now : ℕ} (hscheduled : scheduled ≤ u64Max)
    (hnow : now ≤ u64Max) : ExactNext scheduled interval now ↔
      ¬ StepsOverflow scheduled interval now := by
  have hnone : nextRunAfter scheduled interval now = none ↔ StepsOverflow scheduled interval now :=
    nextRunAfter_eq_none hnow
  constructor
  · rintro ⟨next, hnext, -⟩ hoverflow
    rw [hnone.mpr hoverflow] at hnext
    cases hnext
  · intro hfits
    obtain ⟨next, hnext⟩ := Option.ne_none_iff_exists'.mp fun h => hfits (hnone.mp h)
    refine ⟨next, hnext, ?_⟩
    rcases Nat.eq_zero_or_pos interval with hzero | hpos
    · have hflat : next = max scheduled now := by
        rw [nextRunAfter, if_pos hzero] at hnext
        exact (Option.some.inj hnext).symm
      refine ⟨fun _ => hflat, ?_, ?_, ?_⟩
      · intro hone
        omega
      · rw [hflat]
        exact le_max_left _ _
      · rw [hflat]
        exact le_max_right _ _
    · have hgrid := nextRunAfter_eq_some hpos hnext
      refine ⟨?_, ?_, ?_, ?_⟩
      · intro hzero
        omega
      · intro _
        exact ⟨_, Grid.next_isLeast hpos, hgrid.trans (min_def _ _)⟩
      · rw [hgrid]
        exact le_min (Grid.start_lt_next hpos).le hscheduled
      · rw [hgrid]
        exact le_min (Grid.lt_next hpos).le hnow

/-- Saturation is exact: nothing is left after the largest time. -/
theorem nextRunAfter_exact_iff_last : ExactNext 1 1 u64Max :=
  (nextRunAfter_exact_iff (by decide) le_rfl).mpr (by
    rintro ⟨-, hzero, -⟩
    cases hzero)

theorem nextRunAfter_overflows : ¬ ExactNext 0 1 u64Max := by
  rintro ⟨next, hnext, -⟩
  rw [(nextRunAfter_eq_none le_rfl).mpr ⟨rfl, rfl, rfl⟩] at hnext
  cases hnext

/-! ## On the wall clock -/

/-- The first run of a calendar is the next time it names, if that fits. -/
theorem firstCalendarRun_isNext {schedule : Schedule} (hcalendar : schedule ≠ .interval)
    (hvalid : scheduleIsValid schedule = true) (start : Timestamp) :
    ∃ least, IsLeast {time | start ≤ time ∧ schedule.Names time} least ∧
      firstCalendarRun schedule start = if least ≤ u64Max then least else u64Max := by
  obtain ⟨least, hleast, hfirst⟩ := firstCalendarRun_isLeast start hcalendar hvalid
  exact ⟨least, hleast, hfirst.trans (min_def _ _)⟩

/-- From one second past a Monday at 9:30, the next one is a week away. -/
theorem firstCalendarRun_isNext_monday :
    ∃ least, IsLeast {time | 379801 ≤ time ∧ (Schedule.weekly 0 9 30).Names time} least ∧
      firstCalendarRun (.weekly 0 9 30) 379801 = if least ≤ u64Max then least else u64Max :=
  firstCalendarRun_isNext (by decide) (by decide) 379801

example : firstCalendarRun (.weekly 0 9 30) 379800 = 379800 := by decide

end SoroCron
