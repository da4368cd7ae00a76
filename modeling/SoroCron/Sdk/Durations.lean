import SoroCron.Registry.Types
import SoroCron.Sdk.Amounts

/-! # Durations and schedules as text

How the SDK writes a number of seconds, by its two largest parts, and a job's schedule.
-/

namespace SoroCron.Sdk

open Decimal

/-- The units that durations are written in, largest first, with their seconds. -/
def writtenUnits : List (Char × ℕ) := [('d', 86400), ('h', 3600), ('m', 60), ('s', 1)]

/-- How often each unit goes into the seconds that the larger ones leave; units that do not are
left out. -/
def durationParts : List (Char × ℕ) → ℕ → List (ℕ × Char)
  | [], _ => []
  | (unit, size) :: rest, s =>
      if size ≤ s then (s / size, unit) :: durationParts rest (s % size) else durationParts rest s

/-- One part as it is written. -/
def partText (part : ℕ × Char) : List Char := Nat.toDigits 10 part.1 ++ [part.2]

/-- The largest integer up to which a `Number` holds every one, and computes exactly with them. -/
def maxSafeInteger : ℤ := 2 ^ 53 - 1

/-- Formats seconds compactly. Up to `maxSafeInteger` this is what the numbers come to; larger ones
are rounded before. -/
def formatDuration (seconds : ℤ) : List Char :=
  if seconds ≤ 0 then
    ['0', 's']
  else
    [' '].intercalate (((durationParts writtenUnits seconds.toNat).take 2).map partText)

/-- Two digits. -/
def pad (n : ℕ) : List Char := padStart 2 (Nat.toDigits 10 n)

def clockText (hour minute : ℕ) : List Char := pad hour ++ ':' :: pad minute

def weekdayNames : List (List Char) :=
  [['M', 'o', 'n', 'd', 'a', 'y'], ['T', 'u', 'e', 's', 'd', 'a', 'y'],
    ['W', 'e', 'd', 'n', 'e', 's', 'd', 'a', 'y'],
    ['T', 'h', 'u', 'r', 's', 'd', 'a', 'y'], ['F', 'r', 'i', 'd', 'a', 'y'],
      ['S', 'a', 't', 'u', 'r', 'd', 'a', 'y'],
    ['S', 'u', 'n', 'd', 'a', 'y']]

/-- The name of a weekday, as the text joins it. -/
def weekdayName (weekday : ℕ) : List Char :=
  weekdayNames.getD weekday ['u', 'n', 'd', 'e', 'f', 'i', 'n', 'e', 'd']

/-- `every 1h`, `daily at 12:00 UTC` or `Mondays at 09:30 UTC`. -/
def describeSchedule (schedule : Schedule) (interval : ℕ) : List Char :=
  match schedule with
  | .interval => "every ".toList ++ formatDuration interval
  | .daily hour minute => "daily at ".toList ++ clockText hour minute ++ " UTC".toList
  | .weekly weekday hour minute =>
      weekdayName weekday ++ "s at ".toList ++ clockText hour minute ++ " UTC".toList

/-! ## What the parts are worth -/

/-- The seconds that parts stand for, by the size of each unit. -/
def worth (size : Char → ℕ) (parts : List (ℕ × Char)) : ℕ :=
  (parts.map fun part => part.1 * size part.2).sum

variable {units : List (Char × ℕ)} {size : Char → ℕ}

theorem mem_durationParts {part : ℕ × Char} {s : ℕ} (hmem : part ∈ durationParts units s) :
    part.2 ∈ units.map Prod.fst := by
  induction units generalizing s with
  | nil => cases hmem
  | cons unit units ih =>
      rw [durationParts] at hmem
      split at hmem
      · rcases List.mem_cons.mp hmem with rfl | hrest
        · exact List.mem_cons_self
        · exact List.mem_cons_of_mem _ (ih hrest)
      · exact List.mem_cons_of_mem _ (ih hmem)

/-- The first parts are worth no more than all seconds. -/
theorem worth_take_le (hsizes : ∀ unit ∈ units, size unit.1 = unit.2) (s count : ℕ) :
    worth size ((durationParts units s).take count) ≤ s := by
  induction units generalizing s count with
  | nil =>
      rw [durationParts, List.take_nil]
      exact Nat.zero_le s
  | cons unit units ih =>
      have hrest := fun other hmem => hsizes other (List.mem_cons_of_mem _ hmem)
      rw [durationParts]
      split
      next hfits =>
        cases count with
        | zero => exact Nat.zero_le s
        | succ count =>
            have hless := ih hrest (s % unit.2) count
            have hparts := Nat.div_add_mod' s unit.2
            rw [List.take_succ_cons, worth, List.map_cons, List.sum_cons,
              hsizes unit List.mem_cons_self]
            change s / unit.2 * unit.2 + worth size _ ≤ s
            omega
      next => exact ih hrest s count

/-- What the first parts are worth is written with these parts. -/
theorem durationParts_worth (hsizes : ∀ unit ∈ units, size unit.1 = unit.2 ∧ 0 < unit.2)
    (s count : ℕ) : durationParts units (worth size ((durationParts units s).take count)) =
      (durationParts units s).take count := by
  induction units generalizing s count with
  | nil => rw [durationParts, durationParts, List.take_nil]
  | cons unit units ih =>
      obtain ⟨hsize, hpos⟩ := hsizes unit List.mem_cons_self
      have hrest := fun other hmem => hsizes other (List.mem_cons_of_mem _ hmem)
      have hless := worth_take_le fun other hmem => (hrest other hmem).1
      by_cases hfits : unit.2 ≤ s
      · have hparts : durationParts (unit :: units) s =
            (s / unit.2, unit.1) :: durationParts units (s % unit.2) := by
          rw [durationParts, if_pos hfits]
        rw [hparts]
        cases count with
        | zero =>
            have hnone := ih hrest 0 0
            rw [List.take_zero] at hnone ⊢
            have hnothing : ¬unit.2 ≤ worth size [] := Nat.not_le.mpr hpos
            rw [durationParts, if_neg hnothing]
            exact hnone
        | succ count =>
            have hlow : worth size ((durationParts units (s % unit.2)).take count) < unit.2 :=
              (hless _ count).trans_lt (Nat.mod_lt _ hpos)
            have hworth : worth size
                (((s / unit.2, unit.1) :: durationParts units (s % unit.2)).take (count + 1)) =
                s / unit.2 * unit.2 + worth size
                  ((durationParts units (s % unit.2)).take count) := by
              rw [List.take_succ_cons, worth, List.map_cons, List.sum_cons, hsize]
              rfl
            have hmany : 1 ≤ s / unit.2 := Nat.div_pos hfits hpos
            have hagain : unit.2 ≤
                s / unit.2 * unit.2 + worth size
                  ((durationParts units (s % unit.2)).take count) := by
              calc unit.2 = 1 * unit.2 := (Nat.one_mul _).symm
                _ ≤ s / unit.2 * unit.2 := Nat.mul_le_mul_right _ hmany
                _ ≤ _ := Nat.le_add_right _ _
            rw [hworth, durationParts, if_pos hagain, Nat.mul_comm, Nat.mul_add_div hpos,
              Nat.div_eq_of_lt hlow,
              Nat.mul_add_mod, Nat.mod_eq_of_lt hlow, ih hrest, Nat.add_zero, List.take_succ_cons]
      · have hparts : durationParts (unit :: units) s = durationParts units s := by
          rw [durationParts, if_neg hfits]
        have hsmall : worth size ((durationParts units s).take count) < unit.2 :=
          (hless s count).trans_lt (Nat.lt_of_not_le hfits)
        rw [hparts, durationParts, if_neg (Nat.not_le.mpr hsmall)]
        exact ih hrest s count

/-- The two largest parts leave out less than a twenty-fifth of what they are worth, and two parts
leave out nothing. -/
theorem worth_two (hsizes : ∀ unit ∈ writtenUnits, size unit.1 = unit.2) {s : ℕ} (hpos : 0 < s) :
    durationParts writtenUnits s ≠ [] ∧
      25 * (s - worth size ((durationParts writtenUnits s).take 2)) <
        worth size ((durationParts writtenUnits s).take 2) ∧
      ((durationParts writtenUnits s).length ≤ 2 →
        worth size ((durationParts writtenUnits s).take 2) = s) := by
  have hd := hsizes ('d', 86400) (by decide)
  have hh := hsizes ('h', 3600) (by decide)
  have hm := hsizes ('m', 60) (by decide)
  have hs := hsizes ('s', 1) (by decide)
  simp only at hd hh hm hs
  simp only [writtenUnits, durationParts]
  split_ifs
  all_goals
    simp only [worth, List.take, List.map_cons, List.map_nil, List.sum_cons, List.sum_nil,
      List.length_cons,
      List.length_nil, hd, hh, hm, hs, ne_eq, reduceCtorEq, not_false_eq_true, true_and]
    omega

end SoroCron.Sdk
