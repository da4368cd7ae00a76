import SoroCron.Guarantees.Delays
import SoroCron.Guarantees.Profit
import SoroCron.KeeperRs.Isolating

/-! # What the Rust keeper counts

The keeper never reads what its transactions did. It counts the jobs that ran in the simulation
and the fees it read before it sent the batch, and it takes an applied transaction for one that
did all that. Meanwhile the chain goes on.
-/

namespace SoroCron.KeeperRs

open Outcome
open KeeperBot (Prepared Submission)

variable {World : Type} {host : Host World} {config : Config} {feeIsNative : Bool}
  {executor keeper : Address}
  {c later last : Chain World} {b b' : Batch World} {ids : List JobId} {ctx : Ctx}

/-! ## A keeper on its chain -/

/-- What happens around one attempt. -/
structure Moment (World : Type) where
  ctx : Ctx
  /-- Everything before the simulation. -/
  before : List (Action World)
  /-- Everything between the simulation and the application. -/
  meanwhile : List (Action World)
  /-- How much of that passed before the fee of a job was read, if it could be read. -/
  readAfter : JobId → Option ℕ
  resourceFee : ℤ
  authorized : Bool
  /-- The simulation gets no answer, or is stopped by the network. -/
  unanswered : Bool
  exhausted : Bool
  /-- The transaction is included, and the keeper learns of it. -/
  delivered : Bool
  confirmed : Bool

/-- The simulation of a batch on one chain. -/
def simulate (host : Host World) (ctx : Ctx) (c : Chain World) (keeper : Address) (ids : List JobId)
    (resourceFee : ℤ) : Except Rejection (Prepared Unit) :=
  match SoroCron.executeBatch host ctx c keeper ids with
  | .ok (result, _) => .ok { result, resourceFee, view := () }
  | .error (.rejected _) => .error .registryError
  | .error (.trap _) => .error .other

/-- The answers of a chain on which the batch is simulated at `seen`, and to which it comes at
`found`. -/
def Moment.answers (moment : Moment World) (host : Host World) (keeper : Address)
    (seen found : Chain World) (ids : List JobId) : Answers Unit where
  simulation :=
    if moment.unanswered then
      none
    else if moment.exhausted then
      some (.error .other)
    else
      some (simulate host moment.ctx seen keeper ids moment.resourceFee)
  authorized := moment.authorized
  currentFee id := (moment.readAfter id).map fun passed =>
    feeOn ((machine host).run seen (moment.meanwhile.take passed)) id
  send :=
    if moment.delivered && moment.confirmed &&
        (SoroCron.executeBatch host moment.ctx found keeper ids).isOk then
      some ()
    else
      none

/-- A keeper in the middle of a tick, and the chain. -/
structure Keeping (World : Type) where
  tick : Tick
  chain : Chain World

/-- The call that a sent batch makes. -/
def batchCall (ctx : Ctx) (keeper : Address) (ids : List JobId) : Action World :=
  .call ctx (.run (.executeBatch keeper ids))

section Attempt

variable (host) (config) (feeIsNative)

/-- The chain a batch is simulated on, and the one it comes to. -/
def Keeping.seen (keeping : Keeping World) (moment : Moment World) : Chain World :=
  (machine host).run keeping.chain moment.before

def Keeping.found (keeping : Keeping World) (moment : Moment World) : Chain World :=
  (machine host).run (keeping.seen host moment) moment.meanwhile

/-- What the next attempt returns and sends. -/
def Keeping.attempt (keeping : Keeping World) (moment : Moment World) (batch : List JobId) :
    Option BatchOutcome × List (Submission Unit) :=
  executeBatch config batch feeIsNative
    (moment.answers host config.keeper (keeping.seen host moment) (keeping.found host moment) batch)

/-- Whether the batch comes to the chain. -/
def Keeping.arrives (keeping : Keeping World) (moment : Moment World) (batch : List JobId) : Bool :=
  !(keeping.attempt host config feeIsNative moment batch).2.isEmpty && moment.delivered

/-- The tick and its chain. The outputs are the runs of the keeper's own transactions. -/
def keepings : Machine (Keeping World) (Moment World) (Execution World) where
  step keeping moment :=
    match keeping.tick.queue with
    | [] => { keeping with chain := keeping.found host moment }
    | batch :: _ =>
        { tick := keeping.tick.attempt (keeping.attempt host config feeIsNative moment batch).1
          chain :=
            if keeping.arrives host config feeIsNative moment batch then
              step host (keeping.found host moment) (batchCall moment.ctx config.keeper batch)
            else
              keeping.found host moment }
  out keeping moment :=
    match keeping.tick.queue with
    | [] => []
    | batch :: _ =>
        if keeping.arrives host config feeIsNative moment batch then
          runsMade (acts host (keeping.found host moment)
            (batchCall moment.ctx config.keeper batch))
        else
          []

end Attempt

/-! ## What a transaction does -/

/-- What a run took from its job. -/
def runFee (e : Execution World) : ℤ :=
  (e.before.chain.reg.jobs.states.get e.jobId).elim 0 JobState.balance -
    (e.after.chain.reg.jobs.states.get e.jobId).elim 0 JobState.balance

theorem runFee_eq {id : JobId} {r : Receipt World} (hran : Ran host executor keeper id b b' r) :
    runFee { jobId := id, executor, keeper, before := b, after := b' } = r.fee := by
  have hbefore : b.chain.reg.jobs.states.get id = some r.admission.state :=
    JobTable.states_get_of_parts hran.admitted.parts
  have hafter : b'.chain.reg.jobs.states.get id = some (r.state b.chain.reg.config) := by
    rw [hran.reg]
    exact Store.get_set_self _ _ _
  rw [runFee, hbefore, hafter, Option.elim_some, Option.elim_some]
  have hbalance := hran.balance_eq
  change r.admission.state.balance - r.balance = r.fee
  omega

/-- The runs of a batch without repeated jobs are of the jobs whose flags are set, and cost what was
quoted for them. -/
theorem runsOf_quoted {flags : List Bool} (hdistinct : ids.Nodup) (hunpriced : Unpriced c ids b)
    (h : runJobs host executor keeper ids b = .ok (flags, b')) :
    (runsOf host executor keeper ids b).map Execution.jobId = ranOf ids flags ∧
      ((runsOf host executor keeper ids b).map runFee).sum =
        quoted Quote.fee c (ranOf ids flags) := by
  induction ids generalizing b flags with
  | nil =>
      simp only [runJobs, Except.ok.injEq, Prod.mk.injEq] at h
      obtain ⟨rfl, rfl⟩ := h
      exact ⟨rfl, rfl⟩
  | cons id rest ih =>
      obtain ⟨hnew, hrest⟩ := List.nodup_cons.mp hdistinct
      simp only [runJobs, bind_eq_ok, Prod.exists, pure_eq_ok, Prod.mk.injEq] at h
      obtain ⟨outcome, middle, hjob, others, b₁, hruns, rfl, rfl⟩ := h
      cases outcome with
      | ok u =>
          obtain ⟨r, hran⟩ := runJob_eq_ran.mp hjob
          obtain ⟨hids, hfees⟩ := ih hrest (hunpriced.ran hnew hran) hruns
          have hmade : runsOf host executor keeper (id :: rest) b =
              { jobId := id, executor, keeper, before := b, after := middle } ::
                runsOf host executor keeper rest middle := by
            rw [runsOf, hjob]
          have hflags : ranOf (id :: rest) (Except.isOk (.ok u : Except Error Unit) :: others) =
              id :: ranOf rest others := rfl
          rw [hmade, hflags, List.map_cons, List.map_cons, List.sum_cons, hids, hfees,
            runFee_eq hran, quoted_cons, hunpriced.quote hran]
          exact ⟨rfl, rfl⟩
      | error reason =>
          have hmiddle : Unpriced c rest middle := by
            rcases runJob_rejected hjob with rfl | ⟨spec, rfl⟩
            · exact hunpriced.tail
            · exact hunpriced.tail.asked id spec
          have hmade : runsOf host executor keeper (id :: rest) b =
              runsOf host executor keeper rest middle := by
            rw [runsOf, hjob]
          rw [hmade]
          exact ih hrest hmiddle hruns

theorem runsMade_batchCall {ran : List Bool} (hdistinct : ids.Nodup)
    (h : SoroCron.executeBatch host ctx c keeper ids = .ok (ran, last)) :
    (runsMade (acts host c (batchCall ctx keeper ids))).map Execution.jobId = ranOf ids ran ∧
      ((runsMade (acts host c (batchCall ctx keeper ids))).map runFee).sum =
        quoted Quote.fee c (ranOf ids ran) := by
  have hcall : runCall host ctx c (.executeBatch keeper ids) = .ok last :=
    Result.chain_eq_ok.mpr ⟨ran, h⟩
  have hacts : acts host c (batchCall ctx keeper ids) =
      actsOf host ctx c (.run (.executeBatch keeper ids)) := by
    simp only [batchCall, acts, Call.perform, hcall]
  obtain ⟨-, executor, info, b, hauth, hruns, -⟩ := executeBatch_eq_ok.mp h
  have hmade : actsOf host ctx c (.run (.executeBatch keeper ids)) =
      (runsOf host executor keeper ids (startBatch c keeper info)).map
        fun execution => .job execution.jobId (.ran execution) := by
    simp only [actsOf, runsBy, RunCall.keeper, RunCall.jobIds, hauth]
  rw [hacts, hmade, runsMade_ran]
  exact runsOf_quoted hdistinct ⟨rfl, rfl, fun _ _ => rfl⟩ hruns

theorem runsMade_failed {why : Failure}
    (h : SoroCron.executeBatch host ctx c keeper ids = .error why) :
    runsMade (acts host c (batchCall ctx keeper ids)) = [] := by
  have hcall : runCall host ctx c (.executeBatch keeper ids) = .error why := by
    rw [runCall, h]
    rfl
  simp only [batchCall, acts, Call.perform, hcall]
  rfl

/-! ## What an attempt counts -/

/-- The fees that an outcome says were earned. -/
def BatchOutcome.earned : BatchOutcome → ℤ
  | .executed _ earned => earned
  | _ => 0

theorem attempt_counts {tick : Tick} {batch : List JobId} {queue : List (List JobId)}
    {outcome : Option BatchOutcome} (hqueue : tick.queue = batch :: queue) :
    (tick.attempt outcome).summary.executed =
        tick.summary.executed + (Attempt.executed { batch, outcome }).length ∧
      (tick.attempt outcome).summary.earned =
        tick.summary.earned + outcome.elim 0 BatchOutcome.earned := by
  unfold Tick.attempt Attempt.executed
  rw [hqueue]
  cases outcome with
  | none => exact ⟨rfl, (add_zero _).symm⟩
  | some reported =>
      cases reported with
      | jobProblem =>
          match batch with
          | [] | [_] | _ :: _ :: _ => exact ⟨rfl, (add_zero _).symm⟩
      | executed ran earned => exact ⟨rfl, rfl⟩
      | simulated ran => exact ⟨rfl, (add_zero _).symm⟩
      | skipped => exact ⟨rfl, (add_zero _).symm⟩
      | unprofitable ran earned cost =>
          dsimp only
          split
          · exact ⟨rfl, (add_zero _).symm⟩
          · exact ⟨rfl, (add_zero _).symm⟩

/-- A batch that was sent was simulated, its fees were read, and its jobs count as executed once its
success is known. -/
structure Sent {View : Type} (answers : Answers View) (batch : List JobId)
    (outcome : Option BatchOutcome) (prepared : Prepared View) (earned : ℤ) : Prop where
  simulation : answers.simulation = some (.ok prepared)
  fees : readFees answers.currentFee (ranOf batch (ranFlags prepared.result batch.length)) =
    some earned
  outcome : outcome = answers.send.map fun _ =>
    .executed (ranOf batch (ranFlags prepared.result batch.length)) earned

/-- Without a dry run, an attempt sends its batch or counts nothing. -/
theorem executeBatch_sent {View : Type} (config : Config) (batch : List JobId) (feeIsNative : Bool)
    (answers : Answers View) (hdry : config.dryRun = false) :
    (executeBatch config batch feeIsNative answers).2.isEmpty = false ∧
        (∃ prepared earned, Sent answers batch
          (executeBatch config batch feeIsNative answers).1 prepared earned) ∨
      (executeBatch config batch feeIsNative answers).2.isEmpty = true ∧
        Attempt.executed { batch, outcome := (executeBatch config batch feeIsNative answers).1 } =
          [] ∧
        (executeBatch config batch feeIsNative answers).1.elim 0 BatchOutcome.earned = 0 := by
  unfold executeBatch
  cases hsimulation : answers.simulation with
  | none => exact .inr ⟨rfl, rfl, rfl⟩
  | some simulated =>
      cases simulated with
      | error rejection =>
          cases rejection with
          | registryError | other => exact .inr ⟨rfl, rfl, rfl⟩
      | ok prepared =>
          dsimp only
          split
          next => exact .inr ⟨rfl, rfl, rfl⟩
          next =>
            split
            next => exact .inr ⟨rfl, rfl, rfl⟩
            next =>
              split
              next => exact .inr ⟨rfl, rfl, rfl⟩
              next earned hfees =>
                split
                next => exact .inr ⟨rfl, rfl, rfl⟩
                next =>
                  rw [hdry]
                  exact .inl ⟨rfl, prepared, earned, hsimulation, hfees, rfl⟩

theorem readFees_eq_some {currentFee : JobId → Option ℤ} {total : ℤ}
    (h : readFees currentFee ids = some total) :
    ∃ fees : JobId → ℤ, (∀ id ∈ ids, currentFee id = some (fees id)) ∧
      total = (ids.map fees).sum := by
  refine ⟨fun id => (currentFee id).getD 0, ?_⟩
  induction ids generalizing total with
  | nil => exact ⟨fun id hid => absurd hid List.not_mem_nil, (Option.some.inj h).symm⟩
  | cons id rest ih =>
      simp only [readFees, Option.bind_eq_bind, Option.bind_eq_some_iff, Option.pure_def,
        Option.some.injEq] at h
      obtain ⟨fee, hfee, others, hrest, rfl⟩ := h
      obtain ⟨hread, rfl⟩ := ih hrest
      refine ⟨?_, ?_⟩
      · intro other hother
        rcases List.mem_cons.mp hother with rfl | hother
        · simp only [hfee, Option.getD_some]
        · exact hread other hother
      · rw [List.map_cons, List.sum_cons, hfee, Option.getD_some]

/-- The fee that a job would pay rises while it waits. -/
theorem feeOn_le (h : Waited c later) (hreach : Reachable host c) (id : JobId) :
    feeOn c id ≤ feeOn later id := by
  unfold feeOn currentFee
  rw [h.jobs]
  cases hparts : c.reg.jobs.getJobParts id with
  | none => exact le_rfl
  | some parts =>
      obtain ⟨spec, state⟩ := parts
      obtain ⟨fee, laterFee, hfee, hlater, hle⟩ :=
        (fees_are_safe hreach).grows id spec state c.now later.now hparts h.now
      change ((rampedFee spec state c.now).getD 0) ≤ ((rampedFee spec state later.now).getD 0)
      rw [hfee, hlater]
      exact hle

/-! ## One attempt on the chain -/

/-- Anything may happen around an attempt. -/
def Passes (host : Host World) (keeping : Keeping World) (moment : Moment World) : Prop :=
  (machine host).Along (Admissible host) keeping.chain moment.before ∧
    (machine host).Along (Admissible host) (keeping.seen host moment) moment.meanwhile

/-- No other call reaches the registry while the attempt is under way, and its jobs last that
long. -/
structure Undisturbed (host : Host World) (keeping : Keeping World) (moment : Moment World) :
    Prop where
  before : (machine host).Along (Admissible host) keeping.chain moment.before
  meanwhile : (machine host).Along (Idle host) (keeping.seen host moment) moment.meanwhile
  early : (keeping.found host moment).now < u64Max
  lasts : ∀ batch ∈ keeping.tick.queue.head?, ∀ id ∈ batch,
    Lasts (keeping.seen host moment) batch (keeping.found host moment).now id

/-- The transaction is applied, and known to be, on the chain that it was simulated on. -/
structure Immediate (host : Host World) (keeping : Keeping World) (moment : Moment World) :
    Prop where
  before : (machine host).Along (Admissible host) keeping.chain moment.before
  atOnce : moment.meanwhile = []
  arrives : moment.delivered = true ∧ moment.confirmed = true

theorem Undisturbed.passes {keeping : Keeping World} {moment : Moment World}
    (h : Undisturbed host keeping moment) : Passes host keeping moment :=
  ⟨h.before, Machine.along_mono (fun _ _ hwaits => hwaits.1) h.meanwhile⟩

theorem Immediate.passes {keeping : Keeping World} {moment : Moment World}
    (h : Immediate host keeping moment) : Passes host keeping moment :=
  ⟨h.before, h.atOnce ▸ trivial⟩

theorem simulate_eq_ok {resourceFee : ℤ} {prepared : Prepared Unit}
    (h : simulate host ctx c keeper ids resourceFee = .ok prepared) :
    ∃ c', SoroCron.executeBatch host ctx c keeper ids = .ok (prepared.result, c') := by
  unfold simulate at h
  split at h
  next result c' hruns =>
    cases h
    exact ⟨c', hruns⟩
  next => cases h
  next => cases h

section Answers

variable {moment : Moment World} {seen found : Chain World} {prepared : Prepared Unit}
  {outcome : Option BatchOutcome}
  {earned : ℤ}

/-- A batch was simulated where it was seen. -/
theorem Sent.simulated
    (h : Sent (moment.answers host keeper seen found ids) ids outcome prepared earned) :
    ∃ c', SoroCron.executeBatch host moment.ctx seen keeper ids = .ok (prepared.result, c') := by
  have hsimulation := h.simulation
  simp only [Moment.answers] at hsimulation
  split at hsimulation
  · cases hsimulation
  · split at hsimulation
    · cases hsimulation
    · exact simulate_eq_ok (Option.some.inj hsimulation)

/-- The keeper takes a batch for executed only if it arrived and applied. -/
theorem Sent.outcome_cases
    (h : Sent (moment.answers host keeper seen found ids) ids outcome prepared earned) :
    outcome = none ∧ (moment.delivered = true → moment.confirmed = true →
        (SoroCron.executeBatch host moment.ctx found keeper ids).isOk = false) ∨
      outcome = some (.executed (ranOf ids (ranFlags prepared.result ids.length)) earned) ∧
        moment.delivered = true ∧
        ∃ ran last, SoroCron.executeBatch host moment.ctx found keeper ids = .ok (ran, last) := by
  rw [h.outcome, Moment.answers]
  dsimp only
  split
  next hsent =>
    simp only [Bool.and_eq_true] at hsent
    obtain ⟨⟨hdelivered, -⟩, hok⟩ := hsent
    refine .inr ⟨rfl, hdelivered, ?_⟩
    cases hruns : SoroCron.executeBatch host moment.ctx found keeper ids with
    | error why =>
        rw [hruns] at hok
        cases hok
    | ok result => exact ⟨result.1, result.2, rfl⟩
  next hlost =>
    refine .inl ⟨rfl, ?_⟩
    intro hdelivered hconfirmed
    rw [hdelivered, hconfirmed] at hlost
    simpa using hlost

/-- What was earned is the sum of the fees that were read while the attempt was under way. -/
theorem Sent.earned_eq
    (h : Sent (moment.answers host keeper seen found ids) ids outcome prepared earned)
    (hflags : ranFlags prepared.result ids.length = prepared.result) :
    ∃ fees : JobId → ℤ, earned = ((ranOf ids prepared.result).map fees).sum ∧
      ∀ id ∈ ranOf ids prepared.result, ∃ passed,
        fees id = feeOn ((machine host).run seen (moment.meanwhile.take passed)) id := by
  have hread := h.fees
  rw [hflags] at hread
  obtain ⟨fees, hreads, hearned⟩ := readFees_eq_some hread
  refine ⟨fees, hearned, ?_⟩
  intro id hid
  obtain ⟨passed, -, hfee⟩ := Option.map_eq_some_iff.mp (hreads id hid)
  exact ⟨passed, hfee.symm⟩

end Answers

section Steps

variable {keeping : Keeping World} {moment : Moment World} {batch : List JobId}
  {queue : List (List JobId)}
  {made : List (Execution World)}

theorem Passes.found (h : Passes host keeping moment) (hreach : Reachable host keeping.chain) :
    Reachable host (keeping.seen host moment) ∧ Reachable host (keeping.found host moment) :=
  ⟨hreach.run h.1, (hreach.run h.1).run h.2⟩

theorem Undisturbed.waited (h : Undisturbed host keeping moment) :
    Waited (keeping.seen host moment) (keeping.found host moment) :=
  waited_run h.meanwhile

/-- A fee is read on a chain between the two. -/
theorem Undisturbed.read_le (h : Undisturbed host keeping moment)
    (hreach : Reachable host keeping.chain) (passed : ℕ) (id : JobId) :
    feeOn ((machine host).run (keeping.seen host moment) (moment.meanwhile.take passed)) id ≤
      feeOn (keeping.found host moment) id := by
  have hmeanwhile := h.meanwhile
  rw [← List.take_append_drop passed moment.meanwhile] at hmeanwhile
  obtain ⟨hfirst, hsecond⟩ := Machine.along_append.mp hmeanwhile
  have hread := ((h.passes.found hreach).1).waits hfirst
  have hwaited := waited_run hsecond
  rw [← Machine.run_append, List.take_append_drop] at hwaited
  exact feeOn_le hwaited hread id

/-- What the keeper's own transaction runs, if there is one. -/
theorem keepings_out (config : Config) (feeIsNative : Bool) (hpasses : Passes host keeping moment)
    (hreach : Reachable host keeping.chain) (hqueue : keeping.tick.queue = batch :: queue)
    (hdistinct : batch.Nodup) : let out := (keepings host config feeIsNative).out keeping moment
    (out.map Execution.jobId).Sublist batch ∧ 0 ≤ (out.map runFee).sum := by
  intro out
  have hfound := (hpasses.found hreach).2
  have hnone : (([] : List (Execution World)).map Execution.jobId).Sublist batch ∧
      0 ≤ (([] : List (Execution World)).map runFee).sum := ⟨List.nil_sublist _, le_rfl⟩
  simp only [out, keepings, hqueue]
  split
  · cases hruns : SoroCron.executeBatch host moment.ctx
      (keeping.found host moment) config.keeper batch with
    | error why =>
        rw [runsMade_failed hruns]
        exact hnone
    | ok result =>
        obtain ⟨hids, hfees⟩ := runsMade_batchCall hdistinct hruns
        rw [hids, hfees]
        refine ⟨ranOf_sublist _ _, ?_⟩
        apply List.sum_nonneg
        intro amount hmem
        obtain ⟨id, -, rfl⟩ := List.mem_map.mp hmem
        cases hquote : quote (keeping.found host moment) id with
        | none => exact le_rfl
        | some q => exact (quote_nonneg hfound.sound hquote).1
  · exact hnone

/-- A batch that is sent is not tried again. -/
theorem sent_parts {View : Type} {answers : Answers View} {outcome : Option BatchOutcome}
    {prepared : Prepared View} {earned : ℤ} (h : Sent answers batch outcome prepared earned) :
    Attempt.parts { batch, outcome } = [] := by
  rw [h.outcome]
  cases answers.send with
  | none => rfl
  | some u => rfl

/-- What a tick has done to the chain so far: it ran only jobs of `all`, each at most once, and none
that is still queued. -/
structure Kept (host : Host World) (all : List JobId) (made : List (Execution World))
    (keeping : Keeping World) : Prop where
  reachable : Reachable host keeping.chain
  fresh : Worklist.Fresh keeping.tick.queue
  queued : ∀ id ∈ keeping.tick.queue.flatten, id ∈ all
  listed : ∀ id ∈ made.map Execution.jobId, id ∈ all
  apart : ∀ id ∈ made.map Execution.jobId, id ∉ keeping.tick.queue.flatten
  once : (made.map Execution.jobId).Nodup

theorem Kept.step {all : List JobId} (h : Kept host all made keeping) (feeIsNative : Bool)
    (hdry : config.dryRun = false) (hpasses : Passes host keeping moment) :
    Kept host all (made ++ (keepings host config feeIsNative).out keeping moment)
      ((keepings host config feeIsNative).step keeping moment) := by
  obtain ⟨hreach, hfresh, hqueued, hlisted, hapart, honce⟩ := h
  obtain ⟨-, hfound⟩ := hpasses.found hreach
  cases hqueue : keeping.tick.queue with
  | nil =>
      simp only [keepings, hqueue, List.append_nil]
      exact ⟨hfound, hfresh, hqueued, hlisted, hapart, honce⟩
  | cons batch queue =>
      have hbatch : ∀ id ∈ batch, id ∈ keeping.tick.queue.flatten := by
        intro id hid
        rw [hqueue]
        exact List.mem_append_left _ hid
      have hdistinct : batch.Nodup := by
        have hall := hfresh.distinct
        rw [hqueue, List.flatten_cons] at hall
        exact (List.nodup_append.mp hall).1
      have hout := (keepings_out config feeIsNative hpasses hreach hqueue hdistinct).1
      have hfits := executeBatch_fits config batch feeIsNative
        (moment.answers host config.keeper (keeping.seen host moment)
          (keeping.found host moment) batch)
      have htakes : Worklist.Takes batch
          (Attempt.parts
            { batch, outcome := (keeping.attempt host config feeIsNative moment batch).1 })
          keeping.tick.queue
            ((keepings host config feeIsNative).step keeping moment).tick.queue := by
        refine ⟨queue, hqueue ▸ List.Perm.refl _, ?_⟩
        simp only [keepings, hqueue]
        exact (attempt_cons hqueue hfits).1
      have hdivides := parts_divide hfits
      have hgone : ∀ id ∈ ((keepings host config feeIsNative).out keeping moment).map
          Execution.jobId,
          id ∉ ((keepings host config feeIsNative).step keeping moment).tick.queue.flatten := by
        intro id hid
        have hsent : keeping.arrives host config feeIsNative moment batch = true := by
          by_contra hnot
          simp only [keepings, hqueue, hnot, if_false] at hid
          cases hid
        rcases executeBatch_sent config batch feeIsNative
            (moment.answers host config.keeper (keeping.seen host moment)
              (keeping.found host moment) batch) hdry with
          ⟨-, prepared, earned, hsent'⟩ | ⟨hquiet, -⟩
        · refine htakes.gone hfresh (hout.subset hid) ?_
          have hnone := sent_parts hsent'
          rw [Keeping.attempt, hnone]
          exact List.not_mem_nil
        · rw [Keeping.arrives, Keeping.attempt, hquiet] at hsent
          cases hsent
      refine ⟨?_, htakes.fresh hdivides hfresh, ?_, ?_, ?_, ?_⟩
      · simp only [keepings, hqueue]
        split
        · exact hfound.step trivial
        · exact hfound
      · intro id hid
        exact hqueued id (htakes.subset hdivides hid)
      · intro id hid
        rw [List.map_append, List.mem_append] at hid
        rcases hid with hold | hnew
        · exact hlisted id hold
        · exact hqueued id (hbatch id (hout.subset hnew))
      · intro id hid
        rw [List.map_append, List.mem_append] at hid
        rcases hid with hold | hnew
        · exact fun hmem => hapart id hold (htakes.subset hdivides hmem)
        · exact hgone id hnew
      · rw [List.map_append]
        refine List.nodup_append.mpr ⟨honce, hdistinct.sublist hout, ?_⟩
        rintro id hold other hnew rfl
        exact hapart id hold (hbatch id (hout.subset hnew))

/-- What one attempt adds to the two counters. -/
theorem keepings_counts (host : Host World) (config : Config) (feeIsNative : Bool)
    (moment : Moment World) (hqueue : keeping.tick.queue = batch :: queue) :
    let outcome := (keeping.attempt host config feeIsNative moment batch).1
    let after := ((keepings host config feeIsNative).step keeping moment).tick.summary
    after.executed = keeping.tick.summary.executed + (Attempt.executed { batch, outcome }).length ∧
      after.earned = keeping.tick.summary.earned + outcome.elim 0 BatchOutcome.earned := by
  simp only [keepings, hqueue]
  exact attempt_counts hqueue

theorem Undisturbed.counts (h : Undisturbed host keeping moment) (feeIsNative : Bool)
    (hdry : config.dryRun = false)
    (hreach : Reachable host keeping.chain) (hqueue : keeping.tick.queue = batch :: queue)
    (hdistinct : batch.Nodup) :
    let outcome := (keeping.attempt host config feeIsNative moment batch).1
    let out := (keepings host config feeIsNative).out keeping moment
    (Attempt.executed { batch, outcome }).length ≤ out.length ∧
      outcome.elim 0 BatchOutcome.earned ≤ (out.map runFee).sum := by
  intro outcome out
  obtain ⟨hseen, hfound⟩ := h.passes.found hreach
  have hpaid : 0 ≤ (out.map runFee).sum :=
    (keepings_out config feeIsNative h.passes hreach hqueue hdistinct).2
  rcases executeBatch_sent config batch feeIsNative
      (moment.answers host config.keeper (keeping.seen host moment)
        (keeping.found host moment) batch) hdry with
    ⟨hsome, prepared, earned, hsent⟩ | ⟨-, hnone, hzero⟩
  · rcases hsent.outcome_cases with ⟨hlost, -⟩ | ⟨hexecuted, hdelivered, ran', last, hruns'⟩
    · have hnothing : outcome = none := hlost
      rw [hnothing]
      exact ⟨Nat.zero_le _, hpaid⟩
    · obtain ⟨c', hruns⟩ := hsent.simulated
      have hflags := ranFlags_eq (executeBatch_pays hseen.sound hdistinct hruns).2.1
      rw [hflags] at hexecuted
      have hran : outcome = some (.executed (ranOf batch prepared.result) earned) := hexecuted
      have hkept : ∀ id ∈ ranOf batch prepared.result, id ∈ ranOf batch ran' := fun id hid =>
        h.waited.batch hseen hfound h.early hdistinct hruns hruns' id hid
          (h.lasts batch (by rw [hqueue]; rfl) id (mem_of_mem_ranOf _ _ hid))
      have hnodup : (ranOf batch prepared.result).Nodup := hdistinct.sublist (ranOf_sublist _ _)
      have hquotes := (executeBatch_pays hfound.sound hdistinct hruns').2.2
      have hout : out =
          runsMade (acts host (keeping.found host moment)
            (batchCall moment.ctx config.keeper batch)) := by
        have harrives : keeping.arrives host config feeIsNative moment batch = true := by
          rw [Keeping.arrives, Keeping.attempt, hsome, hdelivered]
          rfl
        simp only [out, keepings, hqueue, harrives, if_true]
      obtain ⟨hids, hfees⟩ := runsMade_batchCall hdistinct hruns'
      rw [← hout] at hids hfees
      rw [hran, hfees]
      constructor
      · have hlength := (List.subperm_of_subset hnodup hkept).length_le
        rw [← hids, List.length_map] at hlength
        exact hlength
      · obtain ⟨fees, rfl, hreads⟩ := hsent.earned_eq hflags
        have hone : ∀ id ∈ ranOf batch prepared.result,
            fees id ≤ (quote (keeping.found host moment) id).elim 0 Quote.fee := by
          intro id hid
          obtain ⟨q, hquote⟩ := Option.isSome_iff_exists.mp (hquotes id (hkept id hid))
          obtain ⟨passed, hfee⟩ := hreads id hid
          rw [hquote, Option.elim_some, ← feeOn_eq hquote, hfee]
          exact h.read_le hreach passed id
        calc ((ranOf batch prepared.result).map fees).sum
            ≤ quoted Quote.fee (keeping.found host moment) (ranOf batch prepared.result) :=
              List.sum_le_sum hone
          _ ≤ quoted Quote.fee (keeping.found host moment) (ranOf batch ran') :=
            ((Waited.refl _).quoted_le hfound.sound hfound.sound hnodup hkept hquotes).1
  · have hexecuted : Attempt.executed { batch, outcome } = [] := hnone
    have hearned : outcome.elim 0 BatchOutcome.earned = 0 := hzero
    rw [hexecuted, hearned]
    exact ⟨Nat.zero_le _, hpaid⟩

theorem Immediate.counts (h : Immediate host keeping moment) (feeIsNative : Bool)
    (hdry : config.dryRun = false)
    (hreach : Reachable host keeping.chain) (hqueue : keeping.tick.queue = batch :: queue)
    (hdistinct : batch.Nodup) :
    let outcome := (keeping.attempt host config feeIsNative moment batch).1
    let out := (keepings host config feeIsNative).out keeping moment
    (Attempt.executed { batch, outcome }).length = out.length ∧
      outcome.elim 0 BatchOutcome.earned = (out.map runFee).sum := by
  intro outcome out
  obtain ⟨hseen, -⟩ := h.passes.found hreach
  have hsame : keeping.found host moment = keeping.seen host moment := by
    rw [Keeping.found, h.atOnce]
    rfl
  have hout : out = if keeping.arrives host config feeIsNative moment batch then
      runsMade (acts host (keeping.seen host moment) (batchCall moment.ctx config.keeper batch))
        else [] := by
    simp only [out, keepings, hqueue, hsame]
  rw [Keeping.arrives, Keeping.attempt, h.arrives.1] at hout
  rcases executeBatch_sent config batch feeIsNative
      (moment.answers host config.keeper (keeping.seen host moment)
        (keeping.found host moment) batch) hdry with
    ⟨hsome, prepared, earned, hsent⟩ | ⟨hempty, hnone, hzero⟩
  · rw [hsome] at hout
    change out = runsMade _ at hout
    obtain ⟨c', hruns⟩ := hsent.simulated
    rcases hsent.outcome_cases with ⟨-, hfails⟩ | ⟨hexecuted, -, -⟩
    · have hok := hfails h.arrives.1 h.arrives.2
      rw [hsame, hruns] at hok
      cases hok
    · have hflags := ranFlags_eq (executeBatch_pays hseen.sound hdistinct hruns).2.1
      rw [hflags] at hexecuted
      have hran : outcome = some (.executed (ranOf batch prepared.result) earned) := hexecuted
      obtain ⟨hids, hfees⟩ := runsMade_batchCall hdistinct hruns
      rw [← hout] at hids hfees
      rw [hran, hfees]
      constructor
      · rw [← out.length_map Execution.jobId, hids]
        rfl
      · obtain ⟨fees, rfl, hreads⟩ := hsent.earned_eq hflags
        have hquotes := (executeBatch_pays hseen.sound hdistinct hruns).2.2
        change ((ranOf batch prepared.result).map fees).sum = _
        unfold quoted
        congr 1
        apply List.map_congr_left
        intro id hid
        obtain ⟨q, hquote⟩ := Option.isSome_iff_exists.mp (hquotes id hid)
        obtain ⟨passed, hfee⟩ := hreads id hid
        rw [h.atOnce, List.take_nil] at hfee
        rw [hquote, Option.elim_some, ← feeOn_eq hquote, hfee]
        rfl
  · rw [hempty] at hout
    have hexecuted : Attempt.executed { batch, outcome } = [] := hnone
    have hearned : outcome.elim 0 BatchOutcome.earned = 0 := hzero
    rw [hexecuted, hearned, hout]
    exact ⟨rfl, rfl⟩

theorem Kept.head_nodup {all : List JobId} (h : Kept host all made keeping)
    (hqueue : keeping.tick.queue = batch :: queue) : batch.Nodup := by
  have hall := h.fresh.distinct
  rw [hqueue, List.flatten_cons] at hall
  exact (List.nodup_append.mp hall).1

end Steps

/-! ## A whole tick -/

section Ticks

variable (quarantine : Quarantine) (batchSize jobCount : ℕ) (isDue : JobId → Bool)

theorem kept_start (hreach : Reachable host c) :
    Kept host (waiting quarantine jobCount isDue) []
      { tick := Tick.start quarantine batchSize jobCount isDue, chain := c } :=
  { reachable := hreach
    fresh := start_fresh quarantine batchSize jobCount isDue
    queued := fun _ hid => (start_items quarantine batchSize jobCount isDue) ▸ hid
    listed := nofun
    apart := nofun
    once := List.nodup_nil }

/-- A relation of what each attempt counts to what it does, kept when both are added up, relates the
counters to everything done. -/
theorem counts_run {guard : Keeping World → Moment World → Prop} {R : ℤ → ℤ → Prop}
    (config : Config)
    (feeIsNative : Bool) (hdry : config.dryRun = false) (hreach : Reachable host c) (hzero : R 0 0)
    (hadd : ∀ a b x y, R a b → R x y → R (a + x) (b + y))
    (hpasses : ∀ keeping moment, guard keeping moment → Passes host keeping moment)
    (hcounts : ∀ keeping moment batch queue, guard keeping moment → Reachable host keeping.chain →
      keeping.tick.queue = batch :: queue → batch.Nodup →
        let outcome := (keeping.attempt host config feeIsNative moment batch).1
        let out := (keepings host config feeIsNative).out keeping moment
        R (Attempt.executed { batch, outcome }).length out.length ∧
          R (outcome.elim 0 BatchOutcome.earned) (out.map runFee).sum)
    {moments : List (Moment World)} (halong : (keepings host config feeIsNative).Along guard
      { tick := Tick.start quarantine batchSize jobCount isDue, chain := c } moments) :
    let m := keepings host config feeIsNative
    let start : Keeping World :=
      { tick := Tick.start quarantine batchSize jobCount isDue, chain := c }
    let made := m.outputs start moments
    R (m.run start moments).tick.summary.executed made.length ∧
      R (m.run start moments).tick.summary.earned (made.map runFee).sum := by
  have hcounted := Machine.history_run
    (J := fun past keeping => Kept host (waiting quarantine jobCount isDue) past keeping ∧
      R keeping.tick.summary.executed past.length ∧
        R keeping.tick.summary.earned (past.map runFee).sum) ?_ []
    ⟨kept_start quarantine batchSize jobCount isDue hreach, hzero, hzero⟩ halong
  · exact hcounted.2
  · rintro past keeping moment ⟨hkept, hexecuted, hearned⟩ h
    refine ⟨hkept.step feeIsNative hdry (hpasses keeping moment h), ?_⟩
    rw [List.length_append, List.map_append, List.sum_append]
    cases hqueue : keeping.tick.queue with
    | nil =>
        simp only [keepings, hqueue, List.length_nil, List.map_nil, List.sum_nil, add_zero]
        exact ⟨hexecuted, hearned⟩
    | cons batch queue =>
        obtain ⟨hcount, hsum⟩ := hcounts keeping moment batch queue h hkept.reachable hqueue
          (hkept.head_nodup hqueue)
        obtain ⟨hafter, hafter'⟩ := keepings_counts host config feeIsNative moment hqueue
        rw [hafter, hafter', Nat.cast_add, Nat.cast_add]
        exact ⟨hadd _ _ _ _ hexecuted hcount, hadd _ _ _ _ hearned hsum⟩

/-- In one tick a keeper's own transactions run jobs that it found due, each at most once, whatever
else reaches the registry. If no other call does while an attempt is under way, and its jobs last
that long, it counts no more jobs than ran and no more fees than these paid; if its transactions
apply where they were simulated, it counts exactly these. -/
theorem tick_counts (config : Config) (feeIsNative : Bool) (hdry : config.dryRun = false)
    (hreach : Reachable host c) (moments : List (Moment World)) :
    let m := keepings host config feeIsNative
    let start : Keeping World :=
      { tick := Tick.start quarantine batchSize jobCount isDue, chain := c }
    let summary := (m.run start moments).tick.summary
    let made := m.outputs start moments
    (m.Along (Passes host) start moments →
      (∀ execution ∈ made, execution.jobId ∈ waiting quarantine jobCount isDue) ∧
        (made.map Execution.jobId).Nodup) ∧
    (m.Along (Undisturbed host) start moments →
      summary.executed ≤ made.length ∧ summary.earned ≤ (made.map runFee).sum) ∧
    (m.Along (Immediate host) start moments →
      summary.executed = made.length ∧ summary.earned = (made.map runFee).sum) := by
  intro m start summary made
  refine ⟨?_, ?_, ?_⟩
  · intro halong
    have hkept := Machine.history_run (J := Kept host (waiting quarantine jobCount isDue))
      (fun past keeping moment h hpasses => h.step feeIsNative hdry hpasses) []
      (kept_start quarantine batchSize jobCount isDue hreach) halong
    exact ⟨fun execution hmem => hkept.listed _ (List.mem_map_of_mem hmem), hkept.once⟩
  · intro halong
    obtain ⟨hexecuted, hearned⟩ :=
      counts_run (R := (· ≤ ·)) quarantine batchSize jobCount isDue config feeIsNative hdry
      hreach le_rfl (fun _ _ _ _ => add_le_add) (fun _ _ h => h.passes)
      (fun keeping moment batch queue h hreach hqueue hdistinct => by
        obtain ⟨hcount, hsum⟩ := h.counts feeIsNative hdry hreach hqueue hdistinct
        exact ⟨Int.ofNat_le.mpr hcount, hsum⟩) halong
    exact ⟨Int.ofNat_le.mp hexecuted, hearned⟩
  · intro halong
    obtain ⟨hexecuted, hearned⟩ :=
      counts_run (R := (· = ·)) quarantine batchSize jobCount isDue config feeIsNative hdry
      hreach rfl (fun _ _ _ _ h h' => by rw [h, h']) (fun _ _ h => h.passes)
      (fun keeping moment batch queue h hreach hqueue hdistinct => by
        obtain ⟨hcount, hsum⟩ := h.counts feeIsNative hdry hreach hqueue hdistinct
        exact ⟨congrArg Int.ofNat hcount, hsum⟩) halong
    exact ⟨Int.ofNat.inj hexecuted, hearned⟩

end Ticks

/-- One batch, simulated and priced twenty seconds after its job fell due. -/
def lateMoment : Moment Unit where
  ctx := ⟨[⟨4⟩]⟩
  before := []
  meanwhile := [.advance 1040]
  readAfter _ := some 0
  resourceFee := 5
  authorized := true
  unanswered := false
  exhausted := false
  delivered := true
  confirmed := true

def lateStart : Keeping Unit where
  tick := Tick.start {} 20 1 fun _ => true
  chain := risingChain

/-- The batch applies twenty seconds later: the keeper counts 20, and the job paid 30. -/
theorem tick_counts_late :
    let m := keepings plainHost { tenthConfig with inclusionFee := 5 } true
    let summary := (m.run lateStart [lateMoment]).tick.summary
    let made := m.outputs lateStart [lateMoment]
    (summary.executed ≤ made.length ∧ summary.earned ≤ (made.map runFee).sum) ∧
      summary.earned = 20 ∧
      (made.map runFee).sum = 30 := by
  intro m summary made
  have hwaits : (machine plainHost).Along (Idle plainHost) risingChain lateMoment.meanwhile := by
    refine ⟨⟨?_, nofun⟩, trivial⟩
    change 1040 ≤ u64Max
    decide
  have hundisturbed : m.Along (Undisturbed plainHost) lateStart [lateMoment] := by
    refine ⟨⟨trivial, hwaits, by decide, ?_⟩, trivial⟩
    intro batch hbatch id hid spec hspec
    have hqueue : lateStart.tick.queue = [[0]] := by decide
    rw [hqueue] at hbatch
    have hlisted : [0] = batch := Option.some.inj hbatch
    rw [← hlisted] at hid
    rw [List.mem_singleton.mp hid] at hspec
    have hget : risingChain.reg.jobs.specs.get 0 = some spec := hspec
    cases hget
    refine ⟨rfl, ?_, .inl rfl⟩
    intro leader hleader
    cases hleader
  refine ⟨?_, by decide +kernel, by decide +kernel⟩
  exact (tick_counts {} 20 1 (fun _ => true) _ true rfl risingChain_reachable [lateMoment]).2.1
    hundisturbed

end SoroCron.KeeperRs
