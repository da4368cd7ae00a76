import SoroCron.Registry.Deployment
import SoroCron.Sdk.Executions

/-! # The leaderboard

The table that the SDK makes of the receipts published since some moment has one row for everybody
who ran a job since then. It counts the runs and the failures among them as the registry made them,
and what it shows as earned is what the registry transferred.
-/

namespace SoroCron

open Outcome Bounded

variable {World : Type} {host : Host World} {c c' : Chain World} {now : Timestamp}
  {notice : Notice World}
  {p p' : Picture}

/-! ## What receipts say of runs -/

/-- What a run counts for its keeper. -/
def Execution.credit (e : Execution World) : Sdk.Credit where
  keeper := e.keeper
  success := e.success
  earned := e.after.payout.keeperFees - e.before.payout.keeperFees
  lateness := e.time - e.due

/-- The credits of the receipts in a part of the log. -/
def creditsTold (news : List (Timestamp × Event)) : List Sdk.Credit :=
  (news.filterMap Sdk.toExecution).map Sdk.Execution.credit

theorem creditsTold_append (first second : List (Timestamp × Event)) :
    creditsTold (first ++ second) = creditsTold first ++ creditsTold second := by
  rw [creditsTold, List.filterMap_append, List.map_append]
  rfl

/-- A run publishes one receipt, after everything else it has to say. -/
theorem Ran.creditsTold_eq {e : Execution World} {r : Receipt World}
    (hran : Ran host e.executor e.keeper e.jobId e.before e.after r)
    (hjobs : e.before.chain.reg.jobs.Sound) (hconfig : e.before.chain.reg.config.Sound) :
    creditsTold ((r.events host e.before.chain.reg e.before.chain.now e.keeper e.jobId).map
      (e.time, ·)) =
      [e.credit] := by
  obtain ⟨-, -, hsum⟩ := hran.parts hjobs hconfig
  have hearned : r.fee - r.protocolFee =
      e.after.payout.keeperFees - e.before.payout.keeperFees := by
    rw [hran.payout.1]
    omega
  have hdue : e.due = r.admission.state.nextRun := by
    rw [Execution.due, Execution.found, hran.admitted.parts]
    rfl
  have hothers :
      ∀ entry ∈ (r.events host e.before.chain.reg e.before.chain.now e.keeper e.jobId).dropLast.map
      (e.time, ·), Sdk.toExecution entry = none := by
    rintro entry hentry
    obtain ⟨event, hevent, rfl⟩ := List.mem_map.mp hentry
    rw [Receipt.events, List.dropLast_concat, List.mem_append, List.mem_append] at hevent
    rcases hevent with (hdeactivated | hexhausted) | hmissed
    · split at hdeactivated
      · rw [List.mem_singleton.mp hdeactivated]
        rfl
      · cases hdeactivated
    · split at hexhausted
      · rw [List.mem_singleton.mp hexhausted]
        rfl
      · cases hexhausted
    · cases hcharged : r.charged e.before.chain.reg e.jobId e.before.chain.now with
      | none =>
          rw [hcharged] at hmissed
          cases hmissed
      | some missed =>
          rw [hcharged, missEvents] at hmissed
          split at hmissed
          · rw [List.mem_singleton.mp hmissed]
            rfl
          · cases hmissed
  rw [Receipt.events, List.dropLast_concat] at hothers
  rw [Receipt.events, List.map_append, creditsTold, List.filterMap_append,
    List.filterMap_eq_nil_iff.mpr hothers, Execution.credit, hran.success, ← hearned, hdue]
  rfl

theorem Told.creditsTold_eq (h : Told host now notice p p') :
    creditsTold (notice.events.map (now, ·)) = (notice.run.map Execution.credit).toList := by
  cases h with
  | @ran execution r hnow hjobs hconfig hran =>
      rw [hran.notice_events, ← hnow]
      exact hran.creditsTold_eq hjobs hconfig
  | @configured _ call reg htreasury =>
      cases call with
      | _ => rfl
  | _ => rfl

theorem life_creditsTold {notices : List (Notice World)} (h : Life (Told host now) notices p p') :
    creditsTold ((notices.flatMap Notice.events).map (now, ·)) =
      (notices.filterMap Notice.run).map Execution.credit := by
  induction h with
  | nil => rfl
  | @cons notice notices before middle after hone _ ih =>
      rw [List.flatMap_cons, List.map_append, creditsTold_append, hone.creditsTold_eq, ih]
      cases hrun : notice.run with
      | none =>
          rw [List.filterMap_cons_none hrun]
          rfl
      | some execution =>
          rw [List.filterMap_cons_some hrun]
          rfl

theorem runsMade_append (first second : List (Act World)) :
    runsMade (first ++ second) = runsMade first ++ runsMade second := by
  rw [runsMade, jobSteps_append, List.map_append, runsIn_append]
  rfl

/-- The log since `c` has one receipt for each run made since then, in their order. -/
theorem creditsTold_since {actions : List (Action World)} (hreach : Reachable host c)
    (halong : (machine host).Along (Admissible host) c actions) :
    creditsTold (((machine host).run c actions).log.drop c.log.length) =
      (runsMade ((machine host).outputs c actions)).map Execution.credit := by
  let J : List (Act World) → Chain World → Prop := fun done c' => Reachable host c' ∧
    ∃ news, c'.log = c.log ++ news ∧ creditsTold news = (runsMade done).map Execution.credit
  have hlast : J ([] ++ (machine host).outputs c actions) ((machine host).run c actions) := by
    refine Machine.history_run ?_ [] ⟨hreach, [], (List.append_nil _).symm, rfl⟩ halong
    rintro done c' action ⟨hreach', news, hlog, hcredits⟩ hadm
    obtain ⟨notices, ⟨hlife, hgrew⟩, hruns⟩ := hreach'.tells action hadm
    refine ⟨hreach'.step hadm, news ++ (notices.flatMap Notice.events).map (c'.now, ·), ?_, ?_⟩
    · rw [← List.append_assoc, ← hlog]
      exact hgrew
    · rw [creditsTold_append, hcredits, life_creditsTold hlife,
        hruns, ← List.map_append, ← runsMade_append]
      rfl
  obtain ⟨-, news, hlog, hcredits⟩ := hlast
  rw [hlog, List.drop_left]
  exact hcredits

/-! ## What runs earn -/

theorem total_keeper_shares (who : Address) (e : Execution World) :
    total .keeper who e.shares = if e.credit.keeper = who then e.credit.earned else 0 := by
  rw [Execution.shares, total_shares,
    if_neg (show ¬ (Role.keeper = .treasury ∧ _) from fun h => by cases h.1), add_zero]
  simp only [true_and]
  rfl

theorem total_keeper_runs (who : Address) (runs : List (Execution World)) :
    total .keeper who (runs.flatMap Execution.shares) =
      ((Grouping.share Sdk.Credit.keeper (runs.map Execution.credit) who).map
        Sdk.Credit.earned).sum := by
  induction runs with
  | nil => rfl
  | cons e rest ih =>
      rw [List.flatMap_cons, total_append, ih, total_keeper_shares, List.map_cons,
        Grouping.share_cons]
      split
      · rw [List.map_cons, List.sum_cons]
      · exact zero_add _

/-- Over a run of the registry as over a step: it pays what its runs earned. -/
theorem run_payments (role : Role) (who : Address) {actions : List (Action World)}
    (hreach : Reachable host c) (halong : (machine host).Along (Admissible host) c actions) :
    total role who ((payroll host).outputs c actions) =
      total role who ((runsMade ((machine host).outputs c actions)).flatMap Execution.shares) := by
  induction actions generalizing c with
  | nil => rfl
  | cons action rest ih =>
      obtain ⟨hadm, hrest⟩ := halong
      have hlater := ih (hreach.step hadm) hrest
      have hpays := step_payments role who action hreach.sound
      rw [Machine.outputs_cons, Machine.outputs_cons, runsMade_append, List.flatMap_append,
        total_append, total_append]
      exact congrArg₂ (· + ·) hpays hlater

theorem runsOf_keeper {executor keeper : Address} (jobIds : List JobId) (b : Batch World) :
    ∀ e ∈ runsOf host executor keeper jobIds b, e.keeper = keeper := by
  induction jobIds generalizing b with
  | nil =>
      intro e hmem
      cases hmem
  | cons jobId rest ih =>
      intro e hmem
      rw [runsOf] at hmem
      split at hmem
      · rcases List.mem_cons.mp hmem with rfl | hlater
        · rfl
        · exact ih _ e hlater
      · exact ih _ e hmem
      · cases hmem

/-- The registry runs no jobs itself. -/
theorem keepers_ne {actions : List (Action World)}
    (halong : (machine host).Along (Admissible host) c actions) :
    ∀ e ∈ runsMade ((machine host).outputs c actions), e.keeper ≠ host.registry := by
  intro e hmem
  obtain ⟨id, hran⟩ := mem_runsMade.mp hmem
  have hall := Machine.outputs_forall (m := machine host) (I := fun _ => True)
    (P := fun act => ∀ id e, act = .job id (.ran e) → e.keeper ≠ host.registry)
    (fun _ _ _ _ => trivial) ?_ trivial halong
  · exact hall _ hran id e rfl
  · rintro c action - - act hact id e rfl
    obtain ⟨ctx, call, executor, info, ran, b, -, hauth, hruns, hin, -⟩ := ran_mem_acts hact
    obtain ⟨-, -, ⟨-, hother⟩, -⟩ := authorizeKeeper_eq_ok.mp hauth
    rw [runsOf_keeper _ _ e hin]
    exact hother

/-! ## The table -/

/-- A table of these runs, of which the registry made these payments, which changed balances of
its fee token by `moved`. -/
structure FairBoard (made : List (Execution World)) (paid : List Payment) (moved : Address → ℤ)
    (board : List Sdk.LeaderboardRow) : Prop where
  /-- Everybody who ran a job has exactly one row, and nobody else has one. -/
  keepers : ∀ who, (board.map Sdk.LeaderboardRow.keeper).count who =
    if who ∈ made.map Execution.keeper then 1 else 0
  runs : ∀ row ∈ board, row.runs = made.countP fun e => e.keeper = row.keeper
  failedRuns : ∀ row ∈ board, row.failedRuns = made.countP
    fun e => e.keeper = row.keeper && !e.success
  earned : ∀ row ∈ board, row.earned = total .keeper row.keeper paid
  /-- So much did the registry transfer to the keeper, with its share as the treasury if it was
  one. -/
  received : ∀ row ∈ board, moved row.keeper = row.earned + total .treasury row.keeper paid
  lateness : ∀ row ∈ board, row.averageLateness =
    ((made.filter fun e => e.keeper = row.keeper).map fun e => e.time - e.due).sum / row.runs
  ranked : board.Pairwise Sdk.Ahead

theorem share_credit (runs : List (Execution World)) (who : Address) :
    Grouping.share Sdk.Credit.keeper (runs.map Execution.credit) who =
      (runs.filter fun e => e.keeper = who).map Execution.credit := by
  rw [Grouping.share, List.filter_map]
  rfl

/-- The leaderboard of receipts that tell of these runs has the rows of these runs. -/
theorem row_of_runs {news : List (Timestamp × Event)} {runs : List (Execution World)}
    {row : Sdk.LeaderboardRow} (hcredits : creditsTold news = runs.map Execution.credit)
    (hrow : row ∈ Sdk.leaderboard (news.filterMap Sdk.toExecution)) :
    row = Sdk.rowOf row.keeper
      ((runs.filter fun e => e.keeper = row.keeper).map Execution.credit) := by
  rw [creditsTold] at hcredits
  obtain ⟨who, -, rfl⟩ := Sdk.mem_leaderboard.mp hrow
  rw [hcredits, share_credit]
  rfl

theorem mem_keepers_of_runs {news : List (Timestamp × Event)} {runs : List (Execution World)}
    (hcredits : creditsTold news = runs.map Execution.credit) (who : Address) :
    who ∈ (Sdk.leaderboard (news.filterMap Sdk.toExecution)).map Sdk.LeaderboardRow.keeper ↔
      who ∈ runs.map Execution.keeper := by
  rw [creditsTold] at hcredits
  have hkeepers : (runs.map Execution.credit).map Sdk.Credit.keeper =
      runs.map Execution.keeper := by
    rw [List.map_map]
    rfl
  rw [← hkeepers, ← hcredits, List.mem_map]
  constructor
  · rintro ⟨row, hrow, rfl⟩
    obtain ⟨who, hwho, rfl⟩ := Sdk.mem_leaderboard.mp hrow
    exact hwho
  · intro hwho
    exact ⟨_, Sdk.mem_leaderboard.mpr ⟨who, hwho, rfl⟩, rfl⟩

/-- From any reachable chain on, the leaderboard of the receipts since then is the table of the runs
made since then, with the earnings that were transferred. -/
theorem leaderboard_is_fair {actions : List (Action World)} (hreach : Reachable host c)
    (halong : (machine host).Along (Admissible host) c actions) :
    FairBoard (runsMade ((machine host).outputs c actions)) ((payroll host).outputs c actions)
      (((transfers host).outputs c actions).sum c.reg.config.feeToken)
      (Sdk.leaderboard
        ((((machine host).run c actions).log.drop c.log.length).filterMap Sdk.toExecution)) := by
  have hcredits := creditsTold_since hreach halong
  have hpaid := fun who => run_payments .keeper who hreach halong
  have houtside := keepers_ne halong
  have hmoved := fun who =>
    @transferred_run _ host c actions hreach.sound halong c.reg.config.feeToken who
  generalize ((machine host).run c actions).log.drop c.log.length = news at hcredits ⊢
  generalize runsMade ((machine host).outputs c actions) = runs at hcredits hpaid houtside ⊢
  have hrows := fun row => @row_of_runs _ _ _ row hcredits
  have hmem := mem_keepers_of_runs hcredits
  have hearned : ∀ row ∈ Sdk.leaderboard (news.filterMap Sdk.toExecution),
      row.earned = total .keeper row.keeper ((payroll host).outputs c actions) := by
    intro row hrow
    rw [congrArg Sdk.LeaderboardRow.earned (hrows row hrow), hpaid, total_keeper_runs, share_credit]
    rfl
  refine ⟨?_, ?_, ?_, hearned, ?_, ?_, Sdk.leaderboard_ranked _⟩
  · intro who
    rw [(Sdk.leaderboard_nodup _).count]
    simp only [hmem]
  · intro row hrow
    rw [congrArg Sdk.LeaderboardRow.runs (hrows row hrow)]
    simp [Sdk.rowOf, List.countP_eq_length_filter]
  · intro row hrow
    rw [congrArg Sdk.LeaderboardRow.failedRuns (hrows row hrow)]
    simp only [Sdk.rowOf, List.countP_map, List.countP_filter]
    apply List.countP_congr
    intro e _
    simp [Execution.credit, and_comm]
  · intro row hrow
    have hother : row.keeper ≠ host.registry := by
      obtain ⟨e, he, hkeeper⟩ := List.mem_map.mp ((hmem row.keeper).mp (List.mem_map_of_mem hrow))
      exact hkeeper ▸ houtside e he
    rw [hmoved _ hother, if_pos rfl, hearned row hrow]
  · intro row hrow
    rw [congrArg Sdk.LeaderboardRow.averageLateness (hrows row hrow),
      congrArg Sdk.LeaderboardRow.runs (hrows row hrow)]
    simp only [Sdk.rowOf, List.map_map]
    rfl

/-- After a first run the table has its keeper, with what it was paid. -/
theorem leaderboard_is_fair_firstRun :
    let log := ((machine plainHost).run (deployment ⟨3⟩ 1000 100 10 1000) firstRun).log
    let board := Sdk.leaderboard
      ((log.drop (deployment ⟨3⟩ 1000 100 10 1000).log.length).filterMap Sdk.toExecution)
    let moved := ((transfers plainHost).outputs (deployment ⟨3⟩ 1000 100 10 1000) firstRun).sum
    (board.map Sdk.LeaderboardRow.keeper).count ⟨4⟩ = 1 ∧
      ∀ row ∈ board, row.keeper = ⟨4⟩ → row.runs = 1 ∧ row.earned = 9 ∧ moved feeAsset ⟨4⟩ = 9 := by
  have hdeployed : Deployed plainHost (deployment ⟨3⟩ 1000 100 10 1000) :=
    deployment_deployed ⟨3⟩ 10 1000 (by decide) (by decide)
  have hfair := leaderboard_is_fair hdeployed.reachable (firstRun_admissible _)
  refine ⟨?_, ?_⟩
  · rw [hfair.keepers]
    decide
  · rintro row hrow hkeeper
    have hreceived := hfair.received row hrow
    rw [hfair.earned row hrow, hkeeper] at hreceived
    rw [hfair.runs row hrow, hfair.earned row hrow, hkeeper]
    exact ⟨by decide, by decide, hreceived.trans (by decide)⟩

end SoroCron
