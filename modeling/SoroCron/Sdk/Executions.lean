import Mathlib.Algebra.GroupWithZero.Nat
import Mathlib.Data.List.Sort
import SoroCron.Foundation.Grouping
import SoroCron.Registry.Payroll

/-! # Receipts and the leaderboard

What the SDK makes of the registry's receipts: a record for each run, and a table of the keepers
ranked by the runs they executed and then by the fees they earned.
-/

namespace SoroCron.Sdk

variable {World : Type}

/-! ## Receipts -/

/-- A decoded receipt of a run. -/
structure Execution where
  jobId : JobId
  keeper : Address
  success : Bool
  fee : ℤ
  protocolFee : ℤ
  run : ℕ
  nextRun : Timestamp
  lateness : ℕ
  failures : ℕ
  closedAt : Timestamp

def toExecution : Timestamp × Event → Option Execution
  | (closedAt, .jobExecuted jobId keeper success fee protocolFee run nextRun lateness failures _) =>
      some { jobId, keeper, success, fee, protocolFee, run, nextRun, lateness, failures, closedAt }
  | _ => none

/-! ## The leaderboard -/

structure LeaderboardRow where
  keeper : Address
  runs : ℕ
  failedRuns : ℕ
  earned : ℤ
  averageLateness : ℕ
deriving DecidableEq

/-- A row that receipts are still added to. -/
structure OpenRow extends LeaderboardRow where
  totalLateness : ℕ

def OpenRow.opened (keeper : Address) : OpenRow where
  keeper := keeper
  runs := 0
  failedRuns := 0
  earned := 0
  averageLateness := 0
  totalLateness := 0

def OpenRow.add (row : OpenRow) (x : Execution) : OpenRow :=
  { row with
    runs := row.runs + 1
    failedRuns := if x.success then row.failedRuns else row.failedRuns + 1
    earned := row.earned + (x.fee - x.protocolFee)
    totalLateness := row.totalLateness + x.lateness }

def OpenRow.closed (row : OpenRow) : LeaderboardRow :=
  { row.toLeaderboardRow with averageLateness := row.totalLateness / row.runs }

/-- More runs come first, then higher earnings. -/
def Ahead (a b : LeaderboardRow) : Prop := b.runs < a.runs ∨ b.runs = a.runs ∧ b.earned ≤ a.earned

instance : DecidableRel Ahead := fun a b =>
  inferInstanceAs (Decidable (b.runs < a.runs ∨ b.runs = a.runs ∧ b.earned ≤ a.earned))

/-- Ranks keepers by runs executed, then by fees earned. -/
def leaderboard (executions : List Execution) : List LeaderboardRow :=
  ((Grouping.group Execution.keeper OpenRow.opened OpenRow.add executions).values.map
    OpenRow.closed).insertionSort
    Ahead

instance : Std.Total Ahead where
  total a b := by
    unfold Ahead
    omega

instance : IsTrans LeaderboardRow Ahead where
  trans a b c hab hbc := by
    unfold Ahead at *
    omega

/-! ## What a row counts -/

/-- What a row takes from one run. -/
structure Credit where
  keeper : Address
  success : Bool
  earned : ℤ
  lateness : ℕ

def Execution.credit (x : Execution) : Credit where
  keeper := x.keeper
  success := x.success
  earned := x.fee - x.protocolFee
  lateness := x.lateness

/-- The row that these credits of one keeper make. -/
def rowOf (keeper : Address) (credits : List Credit) : LeaderboardRow where
  keeper := keeper
  runs := credits.length
  failedRuns := credits.countP fun credit => !credit.success
  earned := (credits.map Credit.earned).sum
  averageLateness := (credits.map Credit.lateness).sum / credits.length

theorem foldl_add (row : OpenRow) (executions : List Execution) : executions.foldl OpenRow.add row =
    { row with
      runs := row.runs + executions.length
      failedRuns := row.failedRuns + executions.countP fun x => !x.success
      earned := row.earned + (executions.map fun x => x.fee - x.protocolFee).sum
      totalLateness := row.totalLateness + (executions.map Execution.lateness).sum } := by
  induction executions generalizing row with
  | nil => simp
  | cons x rest ih =>
      rw [List.foldl_cons, ih, OpenRow.add]
      cases hsuccess : x.success with
      | true => simp [hsuccess, add_assoc, add_comm 1]
      | false => simp [hsuccess, add_assoc, add_comm 1]

theorem closed_foldl_add (keeper : Address) (executions : List Execution) :
    (executions.foldl OpenRow.add (.opened keeper)).closed =
      rowOf keeper (executions.map Execution.credit) := by
  rw [foldl_add]
  simp [OpenRow.closed, OpenRow.opened, rowOf, Function.comp_def, Execution.credit, List.countP_map]

theorem share_credits (executions : List Execution) (keeper : Address) :
    (Grouping.share Execution.keeper executions keeper).map Execution.credit =
      Grouping.share Credit.keeper (executions.map Execution.credit) keeper := by
  rw [Grouping.share, Grouping.share, List.filter_map]
  rfl

theorem keepers_credits (executions : List Execution) :
    (executions.map Execution.credit).map Credit.keeper = executions.map Execution.keeper := by
  rw [List.map_map]
  rfl

/-- Every keeper with a receipt has the row of its credits, and there are no other rows. -/
theorem mem_leaderboard {executions : List Execution} {row : LeaderboardRow} :
    row ∈ leaderboard executions ↔
    ∃ who ∈ (executions.map Execution.credit).map Credit.keeper,
      rowOf who (Grouping.share Credit.keeper (executions.map Execution.credit) who) = row := by
  rw [leaderboard, List.mem_insertionSort, List.mem_map, keepers_credits]
  simp only [Grouping.mem_values_group]
  constructor
  · rintro ⟨row, ⟨who, hwho, rfl⟩, rfl⟩
    exact ⟨who, hwho, by rw [closed_foldl_add, share_credits]⟩
  · rintro ⟨who, hwho, rfl⟩
    exact ⟨_, ⟨who, hwho, rfl⟩, by rw [closed_foldl_add, share_credits]⟩

theorem leaderboard_nodup (executions : List Execution) :
    ((leaderboard executions).map LeaderboardRow.keeper).Nodup := by
  have hperm := (List.perm_insertionSort Ahead
    ((Grouping.group Execution.keeper OpenRow.opened OpenRow.add executions).values.map
      OpenRow.closed)).map
    LeaderboardRow.keeper
  rw [leaderboard, hperm.nodup_iff, List.map_map]
  exact Grouping.nodup_group (f := fun row : OpenRow => row.keeper) (fun _ => rfl) (fun _ _ => rfl)

theorem leaderboard_ranked (executions : List Execution) :
    (leaderboard executions).Pairwise Ahead :=
  List.pairwise_insertionSort Ahead _

end SoroCron.Sdk
