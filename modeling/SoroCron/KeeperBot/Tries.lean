import SoroCron.Foundation.Worklist
import SoroCron.KeeperBot.Tick

/-! # Tries of a batch

What one try of a batch asks of the client, which parts of the batch it leaves to be tried and
what it adds to the summary of the tick.
-/

namespace SoroCron.KeeperBot

variable {View : Type}

/-! ## Calls of the client -/

/-- What a try asks of the client and the network, in order. -/
inductive ClientCall (View : Type) where
  | simulate (ids : List JobId)
  /-- Sends a restore of archived state. -/
  | restore (fee : ℤ)
  | submit (submission : Submission View)

def prepareCalls (deps : TickDeps) (answers : Answers View) (ids : List JobId) :
    List (ClientCall View) :=
  match answers.simulation with
  | .error (.restoreRequired fee) =>
      if deps.maxRestoreFee = 0 ∨ deps.maxRestoreFee < fee then
        [.simulate ids]
      else if deps.dryRun then
        [.simulate ids]
      else
        match answers.restore with
        | .error _ => [.simulate ids, .restore fee]
        | .ok () => [.simulate ids, .restore fee, .simulate ids]
  | _ => [.simulate ids]

def sendCalls (answers : Answers View) (ids : List JobId) (prepared : Prepared View) :
    List (ClientCall View) :=
  let first : Submission View := { ids, prepared, inclusionFee := answers.inclusionFee }
  match answers.send with
  | .error .staleSequence =>
      match answers.rebuilt with
      | .ok rebuilt =>
          [.submit first, .simulate ids,
            .submit { ids, prepared := rebuilt, inclusionFee := answers.inclusionFee }]
      | .error _ => [.submit first, .simulate ids]
  | _ => [.submit first]

/-- The calls of a try, `runBatch` with its effects in the place of its results. -/
def tryCalls (deps : TickDeps) (answers : Answers View) (batch : List DueJob) :
    List (ClientCall View) :=
  let ids := batch.map DueJob.id
  prepareCalls deps answers ids ++
    match (prepare deps answers {}).1 with
    | .error _ => []
    | .ok prepared =>
        let runnable := ranOf batch prepared.result
        if runnable = [] then
          []
        else if refuses deps (runnable.map DueJob.feePerRun).sum
            (prepared.resourceFee + answers.inclusionFee)
            runnable.length then
          []
        else if deps.dryRun then
          []
        else
          sendCalls answers ids prepared

def ClientCall.submission? : ClientCall View → Option (Submission View)
  | .submit submission => some submission
  | _ => none

def ClientCall.isSimulation : ClientCall View → Bool
  | .simulate _ => true
  | _ => false

/-- The summary plays no part in what a simulation gives. -/
theorem prepare_fst (deps : TickDeps) (answers : Answers View) (summary summary' : TickSummary) :
    (prepare deps answers summary).1 = (prepare deps answers summary').1 := by
  unfold prepare
  split
  · split
    · rfl
    split
    · rfl
    split <;> rfl
  · rfl

theorem prepareCalls_cases (deps : TickDeps) (answers : Answers View) (ids : List JobId) :
    prepareCalls deps answers ids = [.simulate ids] ∨
      ∃ fee, deps.dryRun = false ∧ fee ≤ deps.maxRestoreFee ∧
        (prepareCalls deps answers ids = [.simulate ids, .restore fee] ∨
          prepareCalls deps answers ids = [.simulate ids, .restore fee, .simulate ids]) := by
  unfold prepareCalls
  split
  next fee _ =>
    split
    · exact .inl rfl
    next hallowed =>
      split
      · exact .inl rfl
      next hsends =>
        refine .inr ⟨fee, Bool.not_eq_true _ ▸ hsends, not_lt.mp fun hlt => hallowed (.inr hlt), ?_⟩
        split
        · exact .inl rfl
        · exact .inr rfl
  · exact .inl rfl

theorem sendCalls_cases (answers : Answers View) (ids : List JobId) (prepared : Prepared View) :
    let submission (p : Prepared View) : Submission View := ⟨ids, p, answers.inclusionFee⟩
    (sendCalls answers ids prepared = [.submit (submission prepared)] ∧
        (send answers ids prepared).1 = [submission prepared]) ∨
      answers.send = .error .staleSequence ∧
        ((sendCalls answers ids prepared = [.submit (submission prepared), .simulate ids] ∧
            (send answers ids prepared).1 = [submission prepared]) ∨
          ∃ rebuilt, sendCalls answers ids prepared =
              [.submit (submission prepared), .simulate ids, .submit (submission rebuilt)] ∧
            (send answers ids prepared).1 = [submission prepared, submission rebuilt]) := by
  unfold sendCalls send
  cases answers.send with
  | ok sent => exact .inl ⟨rfl, rfl⟩
  | error err =>
      cases err with
      | other => exact .inl ⟨rfl, rfl⟩
      | staleSequence =>
          cases answers.rebuilt with
          | ok rebuilt => exact .inr ⟨rfl, .inr ⟨rebuilt, rfl, rfl⟩⟩
          | error err => exact .inr ⟨rfl, .inl ⟨rfl, rfl⟩⟩

/-- A batch is sent after its simulation or not at all, and never in a dry run. -/
theorem tryCalls_cases (deps : TickDeps) (answers : Answers View) (batch : List DueJob) :
    tryCalls deps answers batch = prepareCalls deps answers (batch.map DueJob.id) ∨
      ∃ prepared, deps.dryRun = false ∧ tryCalls deps answers batch =
        prepareCalls deps answers (batch.map DueJob.id) ++
          sendCalls answers (batch.map DueJob.id) prepared := by
  unfold tryCalls
  cases (prepare deps answers {}).1 with
  | error err => exact .inl (List.append_nil _)
  | ok prepared =>
      dsimp only
      split
      · exact .inl (List.append_nil _)
      split
      · exact .inl (List.append_nil _)
      split
      · exact .inl (List.append_nil _)
      next hsends => exact .inr ⟨prepared, Bool.not_eq_true _ ▸ hsends, rfl⟩

theorem submissions_prepareCalls (deps : TickDeps) (answers : Answers View) (ids : List JobId) :
    (prepareCalls deps answers ids).filterMap ClientCall.submission? = [] := by
  rcases prepareCalls_cases deps answers ids with hone | ⟨fee, -, -, htwo | hthree⟩
  · rw [hone]
    rfl
  · rw [htwo]
    rfl
  · rw [hthree]
    rfl

theorem submissions_sendCalls (answers : Answers View) (ids : List JobId)
    (prepared : Prepared View) : (sendCalls answers ids prepared).filterMap ClientCall.submission? =
      (send answers ids prepared).1 := by
  rcases sendCalls_cases answers ids prepared with ⟨hcalls, hsent⟩ |
    ⟨-, ⟨hcalls, hsent⟩ | ⟨rebuilt, hcalls, hsent⟩⟩
  · rw [hcalls, hsent]
    rfl
  · rw [hcalls, hsent]
    rfl
  · rw [hcalls, hsent]
    rfl

/-- The calls submit what the try is known to submit. -/
theorem submissions_tryCalls (deps : TickDeps) (answers : Answers View) (batch : List DueJob)
    (state : TickState) : (tryCalls deps answers batch).filterMap ClientCall.submission? =
      (runBatch deps answers batch state).submitted := by
  unfold tryCalls runBatch
  rw [List.filterMap_append, submissions_prepareCalls, List.nil_append,
    prepare_fst deps answers {} state.summary]
  obtain ⟨prepared, summary⟩ := prepare deps answers state.summary
  cases prepared with
  | error err =>
      dsimp only
      split
      · rfl
      · split <;> rfl
  | ok p =>
      dsimp only
      split
      · rfl
      split
      · split <;> rfl
      split
      · rfl
      · rw [submissions_sendCalls]
        split <;> rfl

theorem simulations_tryCalls (deps : TickDeps) (answers : Answers View) (batch : List DueJob) :
    (tryCalls deps answers batch).countP ClientCall.isSimulation ≤ 3 := by
  have hprepare : (prepareCalls deps answers (batch.map DueJob.id)).countP
      ClientCall.isSimulation ≤ 2 := by
    rcases prepareCalls_cases deps answers (batch.map DueJob.id) with hone |
      ⟨fee, -, -, htwo | hthree⟩
    · simp [hone, List.countP_cons, ClientCall.isSimulation]
    · simp [htwo, List.countP_cons, ClientCall.isSimulation]
    · simp [hthree, List.countP_cons, ClientCall.isSimulation]
  rcases tryCalls_cases deps answers batch with hcalls | ⟨prepared, -, hcalls⟩
  · rw [hcalls]
    omega
  · have hsend : (sendCalls answers (batch.map DueJob.id) prepared).countP
        ClientCall.isSimulation ≤ 1 := by
      rcases sendCalls_cases answers (batch.map DueJob.id) prepared with
        ⟨hone, -⟩ | ⟨-, ⟨htwo, -⟩ | ⟨rebuilt, hthree, -⟩⟩
      · simp [hone, ClientCall.isSimulation]
      · simp [htwo, List.countP_cons, ClientCall.isSimulation]
      · simp [hthree, List.countP_cons, ClientCall.isSimulation]
    rw [hcalls, List.countP_append]
    omega

/-- Nothing is sent or restored in a dry run. -/
theorem tryCalls_dryRun {deps : TickDeps} (hdry : deps.dryRun = true) (answers : Answers View)
    (batch : List DueJob) : ∀ call ∈ tryCalls deps answers batch, call.isSimulation = true := by
  have hsends : ¬deps.dryRun = false := by simp [hdry]
  have hprepare : prepareCalls deps answers (batch.map DueJob.id) =
      [.simulate (batch.map DueJob.id)] := by
    rcases prepareCalls_cases deps answers (batch.map DueJob.id) with hone | ⟨fee, hsent, -⟩
    · exact hone
    · exact absurd hsent hsends
  rcases tryCalls_cases deps answers batch with hcalls | ⟨prepared, hsent, -⟩
  · intro call hcall
    rw [hcalls, hprepare] at hcall
    cases List.mem_singleton.mp hcall
    rfl
  · exact absurd hsent hsends

/-- No restore costs more than `maxRestoreFee`. -/
theorem tryCalls_restore {deps : TickDeps} {answers : Answers View} {batch : List DueJob} {fee : ℤ}
    (hrestore : ClientCall.restore fee ∈ tryCalls deps answers batch) :
    fee ≤ deps.maxRestoreFee := by
  have hprepare : ClientCall.restore fee ∈ prepareCalls deps answers (batch.map DueJob.id) →
      fee ≤ deps.maxRestoreFee := by
    intro hmem
    rcases prepareCalls_cases deps answers (batch.map DueJob.id) with hone |
      ⟨asked, -, hallowed, htwo | hthree⟩
    · simp [hone] at hmem
    · simp only [htwo, List.mem_cons, reduceCtorEq, ClientCall.restore.injEq, List.not_mem_nil,
        false_or, or_false] at hmem
      exact hmem ▸ hallowed
    · simp only [hthree, List.mem_cons, reduceCtorEq, ClientCall.restore.injEq, List.not_mem_nil,
        false_or, or_false] at hmem
      exact hmem ▸ hallowed
  rcases tryCalls_cases deps answers batch with hcalls | ⟨prepared, -, hcalls⟩
  · exact hprepare (hcalls ▸ hrestore)
  · rw [hcalls] at hrestore
    rcases List.mem_append.mp hrestore with hasked | hsent
    · exact hprepare hasked
    · rcases sendCalls_cases answers (batch.map DueJob.id) prepared with
        ⟨hone, -⟩ | ⟨-, ⟨htwo, -⟩ | ⟨rebuilt, hthree, -⟩⟩
      · simp [hone] at hsent
      · simp [htwo] at hsent
      · simp [hthree] at hsent

/-! ## What a try leaves -/

theorem runBatch_divides {deps : TickDeps} {answers : Answers View} {batch : List DueJob}
    {state : TickState} : Worklist.Divides batch (runBatch deps answers batch state).next := by
  unfold runBatch
  obtain ⟨prepared, summary⟩ := prepare deps answers state.summary
  cases prepared with
  | error err =>
      dsimp only
      split
      next hsplit => exact Worklist.halves_divides (List.Sublist.refl _) hsplit.2
      · split <;> exact Worklist.nil_divides _
  | ok p =>
      dsimp only
      split
      · exact Worklist.nil_divides _
      split
      · split
        next hseveral => exact Worklist.halves_divides (ranOf_sublist _ _) hseveral
        · exact Worklist.nil_divides _
      split
      · exact Worklist.nil_divides _
      split <;> exact Worklist.nil_divides _

/-- The due jobs that the counters of a tick account for. -/
def TickSummary.accounted (summary : TickSummary) : ℕ :=
  summary.executed + summary.skipped + summary.unprofitable + summary.failed + summary.dryRun

theorem prepare_snd (deps : TickDeps) (answers : Answers View) (summary : TickSummary) :
    (prepare deps answers summary).2.due = summary.due ∧
      (prepare deps answers summary).2.accounted = summary.accounted := by
  unfold prepare
  split
  · split
    · exact ⟨rfl, rfl⟩
    split
    · exact ⟨rfl, rfl⟩
    split <;> exact ⟨rfl, rfl⟩
  · exact ⟨rfl, rfl⟩

/-- Every job of a batch is counted by the try, or left to be tried again. -/
theorem runBatch_accounts (deps : TickDeps) (answers : Answers View) (batch : List DueJob)
    (state : TickState) :
    (runBatch deps answers batch state).state.summary.due = state.summary.due ∧
      (runBatch deps answers batch state).state.summary.accounted +
          (runBatch deps answers batch state).next.flatten.length =
        state.summary.accounted + batch.length := by
  have hprepared := prepare_snd deps answers state.summary
  unfold runBatch
  revert hprepared
  obtain ⟨prepared, summary⟩ := prepare deps answers state.summary
  rintro ⟨hdue, haccounted⟩
  rw [← hdue, ← haccounted]
  cases prepared with
  | error err =>
      dsimp only
      split
      · refine ⟨rfl, ?_⟩
        rw [show halves batch = Worklist.halves batch from rfl, Worklist.flatten_halves]
      · split
        all_goals
          refine ⟨rfl, ?_⟩
          dsimp only [TickSummary.accounted, List.flatten_nil, List.length_nil]
          omega
  | ok p =>
      have hran := (ranOf_sublist batch p.result).length_le
      dsimp only
      split
      next hnone =>
        refine ⟨rfl, ?_⟩
        rw [hnone]
        dsimp only [TickSummary.accounted, List.flatten_nil, List.length_nil]
        omega
      next hsome =>
        have hpos := List.length_pos_of_ne_nil hsome
        split
        · split
          · refine ⟨rfl, ?_⟩
            rw [show halves (ranOf batch p.result) = Worklist.halves (ranOf batch p.result)
              from rfl, Worklist.flatten_halves]
            dsimp only [TickSummary.accounted]
            omega
          · refine ⟨rfl, ?_⟩
            dsimp only [TickSummary.accounted, List.flatten_nil, List.length_nil]
            omega
        split
        · refine ⟨rfl, ?_⟩
          dsimp only [TickSummary.accounted, List.flatten_nil, List.length_nil]
          omega
        split
        all_goals
          refine ⟨rfl, ?_⟩
          dsimp only [TickSummary.accounted, List.flatten_nil, List.length_nil]
          omega

/-- A batch that is sent is not tried again. -/
theorem runBatch_sends_all {deps : TickDeps} {answers : Answers View} {batch : List DueJob}
    {state : TickState} (hsent : (runBatch deps answers batch state).submitted ≠ []) :
    (runBatch deps answers batch state).next = [] := by
  revert hsent
  unfold runBatch
  obtain ⟨prepared, summary⟩ := prepare deps answers state.summary
  cases prepared with
  | error err =>
      dsimp only
      split
      · exact fun hsent => absurd rfl hsent
      · split <;> exact fun _ => rfl
  | ok p =>
      dsimp only
      split
      · exact fun _ => rfl
      split
      · split
        · exact fun hsent => absurd rfl hsent
        · exact fun _ => rfl
      split
      · exact fun _ => rfl
      split <;> exact fun _ => rfl

theorem runBatch_stopped {deps : TickDeps} {answers : Answers View} {batch : List DueJob}
    {err : ClientError}
    (hprepared : (prepare deps answers {}).1 = .error err) (hspecific : isJobSpecific err = true)
    (state : TickState) :
    (runBatch deps answers batch state).next = if 1 < batch.length then halves batch else [] := by
  have hstate := (prepare_fst deps answers state.summary {}).trans hprepared
  unfold runBatch
  rcases hpair : prepare deps answers state.summary with ⟨prepared, summary⟩
  rw [hpair] at hstate
  cases hstate
  simp only [hspecific, true_and]
  split
  · rfl
  · split <;> rfl

/-- The job that a try of a batch sets aside. -/
def asideOf (deps : TickDeps) (answers : Answers View) (batch : List DueJob) : List JobId :=
  match (prepare deps answers {}).1, batch with
  | .error err, [job] => if isJobSpecific err then [job.id] else []
  | _, _ => []

theorem runBatch_quarantine (deps : TickDeps) (answers : Answers View) (batch : List DueJob)
    (state : TickState) : (runBatch deps answers batch state).state.quarantine =
      state.quarantine.map fun quarantine =>
        (asideOf deps answers batch).foldl Quarantine.add quarantine := by
  unfold asideOf runBatch
  rw [prepare_fst deps answers {} state.summary]
  obtain ⟨prepared, summary⟩ := prepare deps answers state.summary
  cases prepared with
  | ok p =>
      dsimp only
      split
      · exact Option.map_id'.symm
      split
      · split <;> exact Option.map_id'.symm
      split
      · exact Option.map_id'.symm
      split <;> exact Option.map_id'.symm
  | error err =>
      match batch with
      | [] =>
          dsimp only
          rw [if_neg (fun hsplit => absurd hsplit.2 (Nat.not_lt_zero 1))]
          split
          next heq => cases heq
          next => exact Option.map_id'.symm
      | [job] =>
          dsimp only
          rw [if_neg (fun hsplit => absurd hsplit.2 (Nat.lt_irrefl 1))]
          cases isJobSpecific err with
          | false => exact Option.map_id'.symm
          | true =>
              cases hquarantine : state.quarantine with
              | none => rfl
              | some quarantine => rfl
      | first :: second :: rest =>
          dsimp only
          split
          · exact Option.map_id'.symm
          next hnot =>
            have hgeneral : isJobSpecific err = false := by
              by_contra hspecific
              exact hnot ⟨Bool.not_eq_false _ ▸ hspecific, by simp⟩
            rw [hgeneral]
            exact Option.map_id'.symm

/-- A turn tries the batch at the head of its queue, or finds the queue empty. -/
theorem turn_cases (View : Type) (deps : TickDeps) (tick : Tick) (turn : Turn View) :
    (∃ batch rest, tick.queues[turn.queue]? = some (batch :: rest) ∧
      (ticks View deps).step tick turn =
        { state := (runBatch deps turn.answers batch tick.state).state
          queues := tick.queues.set turn.queue
            ((runBatch deps turn.answers batch tick.state).next ++ rest) } ∧
      (ticks View deps).out tick turn = (runBatch deps turn.answers batch tick.state).submitted) ∨
    ((ticks View deps).step tick turn = tick ∧ (ticks View deps).out tick turn = []) := by
  simp only [ticks]
  split
  next batch rest hqueue => exact .inl ⟨batch, rest, hqueue, rfl, rfl⟩
  next => exact .inr ⟨rfl, rfl⟩

end SoroCron.KeeperBot
