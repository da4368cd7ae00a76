import SoroCron.KeeperBot.Following
import SoroCron.Registry.Ledger

/-! # What the registry tells of a job

Every change of the registry publishes what it did to a job. Read in order, its events bring
the index's entry for the job up to date, except that an exhausted job's balance is told before
the run that left it, and so is charged twice. It is too small for another run either way.
-/

namespace SoroCron.KeeperBot

variable {World : Type} {host : Host World} {now : Timestamp} {notice : Notice World}
  {p p' : Picture}

/-! ## Standings -/

/-- Where a job is in its life, as far as the index cares. -/
inductive Standing where
  | future
  | live (job : IndexedJob)
  | gone

namespace Standing

def job : Standing → Option IndexedJob
  | live job => some job
  | _ => none

def ofPhase (id : JobId) : JobPhase → Standing
  | .future => future
  | .live spec state => live (toIndexed (jobView id spec state))
  | .gone => gone

end Standing

def standing (jobs : JobTable) (id : JobId) : Standing := .ofPhase id (jobs.phase id)

section Tables

variable {jobs jobs' : JobTable} {id : JobId} {spec : JobSpec} {state : JobState}

theorem indexed_eq (jobs : JobTable) (id : JobId) : indexed jobs id = (standing jobs id).job := by
  rw [standing, JobTable.phase, indexed, JobTable.getJob]
  cases jobs.getJobParts id with
  | some parts => rfl
  | none =>
      dsimp only
      split
      · rfl
      · rfl

theorem standing_of_phase {phase : JobPhase} (h : jobs.phase id = phase) :
    standing jobs id = .ofPhase id phase := by
  rw [standing, h]

end Tables

/-! ## Postings -/

/-- What an event does to the balance of an entry. -/
inductive Posting where
  | nothing
  | spent (fee : ℤ)
  | became (balance : ℤ)

namespace Posting

def apply (balance : ℤ) : Posting → ℤ
  | nothing => balance
  | spent fee => balance - fee
  | became told => told

end Posting

def posting (id : JobId) (event : Event) : Posting :=
  if tracked event = some id then
    match event with
    | .jobExecuted _ _ _ fee _ _ _ _ _ _ => .spent fee
    | .jobFunded _ _ _ balance | .jobWithdrawn _ _ balance | .jobExhausted _ balance =>
        .became balance
    | _ => .nothing
  else
    .nothing

/-- The balance of an entry after some events. -/
def post (id : JobId) (events : List Event) (balance : ℤ) : ℤ :=
  events.foldl (fun balance event => (posting id event).apply balance) balance

/-- Whether the index reads job `id` again on an event. -/
def Looks (id : JobId) (event : Event) : Prop := tracked event = some id ∧ asks event = true

/-- Nothing in `events` makes the index read job `id` again. -/
def Unread (id : JobId) (events : List Event) : Prop := ∀ event ∈ events, ¬ Looks id event

/-- An entry may have the right balance, or a wrong one when the job cannot pay for a run. -/
def IndexedJob.Agrees (job : IndexedJob) (balance : ℤ) : Prop :=
  balance = job.balance ∨ (balance < job.feePerRun ∧ job.balance < job.feePerRun)

section Posting

variable {id : JobId} {event : Event} {events first later : List Event} {balance : ℤ}

theorem posting_of_untracked (h : tracked event ≠ some id) : posting id event = .nothing := if_neg h

@[simp] theorem post_nil (id : JobId) (balance : ℤ) : post id [] balance = balance := rfl

@[simp] theorem post_cons (id : JobId) (event : Event) (rest : List Event) (balance : ℤ) :
    post id (event :: rest) balance = post id rest ((posting id event).apply balance) := rfl

theorem post_append (id : JobId) (first later : List Event) (balance : ℤ) :
    post id (first ++ later) balance = post id later (post id first balance) := List.foldl_append

theorem post_silent (h : ∀ event ∈ events, posting id event = .nothing) :
    post id events balance = balance := by
  induction events with
  | nil => rfl
  | cons event rest ih =>
      rw [post_cons, h event List.mem_cons_self]
      exact ih fun event hmem => h event (List.mem_cons_of_mem _ hmem)

theorem unread_append : Unread id (first ++ later) ↔ Unread id first ∧ Unread id later :=
  List.forall_mem_append

end Posting

/-! ## News -/

/-- What the events of one change tell of job `id`, and what the change made of it. -/
inductive News (id : JobId) : List Event → Standing → Standing → Prop where
  | silent {events : List Event} (standing : Standing)
      (h : ∀ event ∈ events, tracked event ≠ some id) :
      News id events standing standing
  | created {owner target : Address} {interval : ℕ} {feePerRun deposit : ℤ} (job : IndexedJob) :
      News id [.jobCreated id owner target interval feePerRun deposit] .future (.live job)
  | updated {interval : ℕ} {feePerRun : ℤ} {maxRuns : ℕ} {endAt : Timestamp}
      (job job' : IndexedJob) :
      News id [.jobUpdated id interval feePerRun maxRuns endAt] (.live job) (.live job')
  | funded {payer : Address} {amount balance : ℤ} (job : IndexedJob) :
      News id [.jobFunded id payer amount balance] (.live job) (.live { job with balance })
  | withdrawn {amount balance : ℤ} (job : IndexedJob) :
      News id [.jobWithdrawn id amount balance] (.live job) (.live { job with balance })
  | activeSet {active : Bool} (job : IndexedJob) :
      News id [.jobActiveSet id active] (.live job) (.live { job with active })
  | cancelled {refund : ℤ} (job : IndexedJob) : News id [.jobCancelled id refund] (.live job) .gone
  | ran (job : IndexedJob) {stops : Bool} {failures failures' runs lateness : ℕ}
      {missed : List Event}
      {keeper : Address} {success : Bool} {fee protocolFee balance : ℤ} {nextRun : Timestamp}
        {digest : Digest}
      (hmissed : ∀ event ∈ missed, tracked event = none) (hfee : 0 ≤ fee)
      (hfunded : job.feePerRun ≤ job.balance) (hbalance : balance = job.balance - fee) :
      News id
        ((if stops = true then [.jobDeactivated id failures] else []) ++
          (if balance < job.feePerRun then [.jobExhausted id balance] else []) ++ missed ++
          [.jobExecuted id keeper success fee protocolFee runs nextRun lateness failures' digest])
        (.live job)
        (.live { job with nextRun, runs, balance, active := if stops = true
          then false else job.active })

theorem missEvents_untracked {keepers : KeeperTable} {jobId : JobId} {ranBy : Address}
    {charged : Option Address} :
    ∀ event ∈ missEvents keepers jobId ranBy charged, tracked event = none := by
  intro event hmem
  cases charged with
  | none => cases hmem
  | some missed =>
      rw [missEvents] at hmem
      split at hmem
      · cases List.mem_singleton.mp hmem
        rfl
      · cases hmem

theorem tracked_one {event : Event} {key : JobId} (h : tracked event = some key) :
    ∀ one ∈ [event], tracked one = none ∨ tracked one = some key := by
  intro one hmem
  rw [List.mem_singleton.mp hmem]
  exact .inr h

/-- A change of one job tells the others nothing. -/
theorem News.of_one {jobs jobs' : JobTable} (key : JobId) {events : List Event}
    (hself : News key events (standing jobs key) (standing jobs' key))
    (htracked : ∀ event ∈ events, tracked event = none ∨ tracked event = some key)
    (hothers : ∀ other, other ≠ key → jobs'.phase other = jobs.phase other) (id : JobId) :
    News id events (standing jobs id) (standing jobs' id) := by
  by_cases heq : id = key
  · rw [heq]
    exact hself
  · have hsame : standing jobs' id = standing jobs id :=
      congrArg (Standing.ofPhase id) (hothers id heq)
    rw [hsame]
    apply News.silent
    intro event hmem hid
    rcases htracked event hmem with hnone | hkey
    · rw [hnone] at hid
      cases hid
    · rw [hkey] at hid
      exact heq (Option.some.inj hid).symm

/-- An event about a job whose state it changed. -/
theorem News.of_state {jobs : JobTable} {key : JobId} {spec : JobSpec} {state state' : JobState}
    {events : List Event} (hparts : jobs.getJobParts key = some (spec, state))
    (hself : News key events (.ofPhase key (.live spec state)) (.ofPhase key (.live spec state')))
    (htracked : ∀ event ∈ events, tracked event = none ∨ tracked event = some key) (id : JobId) :
    News id events (standing jobs id) (standing (jobs.setState key state') id) := by
  refine News.of_one key ?_ htracked (fun other hne => phase_setState_of_ne _ _ hne) id
  rw [standing_of_phase (phase_of_parts hparts),
    standing_of_phase (phase_setState state' (JobTable.specs_get_of_parts hparts))]
  exact hself

theorem News.of_ran {e : Execution World} {r : Receipt World}
    (hran : Ran host e.executor e.keeper e.jobId e.before e.after r)
    (hjobs : e.before.chain.reg.jobs.Sound) (id : JobId) :
    News id e.notice.events (standing e.before.chain.reg.jobs id)
      (standing e.after.chain.reg.jobs id) := by
  have hspec := hjobs.specs _ _ (JobTable.specs_get_of_parts hran.admitted.parts)
  obtain ⟨hbase, hmost⟩ := hran.fee_bounds
  have hpos := hspec.fee_pos
  rw [hran.notice_events, hran.reg]
  refine News.of_state hran.admitted.parts ?_ ?_ id
  · have hfee : 0 ≤ r.fee := by omega
    exact .ran (toIndexed (jobView e.jobId r.admission.spec r.admission.state))
      missEvents_untracked hfee
      (hbase.trans hmost) hran.balance_eq
  · intro event hmem
    simp only [Receipt.events, List.mem_append, List.mem_ite_nil_right, List.mem_singleton] at hmem
    rcases hmem with ((⟨-, rfl⟩ | ⟨-, rfl⟩) | hmissed) | rfl
    · exact .inr rfl
    · exact .inr rfl
    · exact .inl (missEvents_untracked event hmissed)
    · exact .inr rfl

/-- Every stored job has an id that was issued. -/
def Issued (jobs : JobTable) : Prop :=
  ∀ id state, jobs.states.get id = some state → id < jobs.nextJobId

theorem Issued.setState {jobs : JobTable} {key : JobId} {spec : JobSpec} {state : JobState}
    (h : Issued jobs) (hparts : jobs.getJobParts key = some (spec, state)) (state' : JobState) :
    Issued (jobs.setState key state') := by
  intro id found hfound
  rw [JobTable.setState_states, Store.get_set] at hfound
  split at hfound
  next heq =>
    rw [heq]
    exact h key state (JobTable.states_get_of_parts hparts)
  next => exact h id found hfound

theorem issued_of_told (h : Told host now notice p p') (hissued : Issued p.jobs) :
    Issued p'.jobs := by
  cases h with
  | created hsound hunoffered =>
      intro id found hfound
      change id < p.jobs.nextJobId + 1
      by_cases heq : id = p.jobs.nextJobId
      · rw [heq]
        exact Nat.lt_succ_self _
      · have hold : p.jobs.states.get id = some found :=
          (Store.get_set_of_ne _ _ heq).symm.trans hfound
        exact Nat.lt_succ_of_lt (hissued id found hold)
  | updated hparts => exact hissued.setState hparts _
  | funded hparts => exact hissued.setState hparts _
  | withdrawn hparts => exact hissued.setState hparts _
  | activeSet hparts => exact hissued.setState hparts _
  | offered hparts =>
      dsimp only
      split
      · exact hissued
      · exact hissued
  | @cancelled _ key spec state hparts =>
      intro id found hfound
      by_cases heq : id = key
      · have hgone : (p.jobs.states.remove key).get id = none := by rw [heq, Store.get_remove_self]
        cases hgone.symm.trans hfound
      · exact hissued id found ((Store.get_remove_of_ne _ heq).symm.trans hfound)
  | ran hnow hjobs hconfig hran =>
      change Issued (Batch.chain _).reg.jobs
      rw [hran.reg]
      exact hissued.setState hran.admitted.parts _
  | _ => exact hissued

/-- Every change is news of every job. -/
theorem news_of_told (h : Told host now notice p p') (hissued : Issued p.jobs) (id : JobId) :
    News id notice.events (standing p.jobs id) (standing p'.jobs id) := by
  cases h with
  | @created _ owner params deposit hsound hunoffered =>
      refine News.of_one p.jobs.nextJobId ?_ (tracked_one rfl) ?_ id
      · rw [standing_of_phase (hsound.phase_fresh le_rfl),
          standing_of_phase (phase_withJob _ _ _ _ _)]
        exact .created _
      · intro other hne
        exact phase_withJob_of_ne now owner params deposit hne
  | @updated _ key update spec state interval leaderRuns hparts =>
      refine News.of_one key ?_ (tracked_one rfl) ?_ id
      · rw [standing_of_phase (phase_of_parts hparts),
          standing_of_phase (phase_setState _ (Store.get_set_self _ _ _))]
        exact .updated _ _
      · intro other hne
        exact phase_congr (Store.get_set_of_ne _ _ hne) (Store.get_set_of_ne _ _ hne) Iff.rfl
  | funded hparts =>
      refine News.of_state hparts ?_ (tracked_one rfl) id
      exact .funded _
  | withdrawn hparts =>
      refine News.of_state hparts ?_ (tracked_one rfl) id
      exact .withdrawn _
  | activeSet hparts =>
      refine News.of_state hparts ?_ (tracked_one rfl) id
      exact .activeSet _
  -- A proposal is stored apart from the job.
  | @offered _ key newOwner spec state hparts =>
      have hphase : (if newOwner = spec.owner then p.jobs.removePendingOwner key
          else p.jobs.setPendingOwner key newOwner).phase = p.jobs.phase := by
        funext other
        split
        · exact phase_congr rfl rfl Iff.rfl
        · exact phase_congr rfl rfl Iff.rfl
      change News id _ _ (.ofPhase id (JobTable.phase _ id))
      rw [hphase]
      exact .silent _ (by simp [tracked])
  -- The keeper does not track owners.
  | @handedOver _ key newOwner spec state hparts =>
      refine News.of_one key ?_ ?_ ?_ id
      · rw [standing_of_phase (phase_of_parts hparts),
          standing_of_phase (phase_handedOver newOwner hparts)]
        exact .silent _ (by simp [tracked])
      · simp [tracked]
      · intro other hne
        exact phase_congr (Store.get_set_of_ne _ _ hne) rfl Iff.rfl
  | @cancelled _ key spec state hparts =>
      have hafter := phase_cancelled spec.owner
        (hissued key state (JobTable.states_get_of_parts hparts))
      refine News.of_one key ?_ (tracked_one rfl) ?_ id
      · rw [standing_of_phase (phase_of_parts hparts), standing_of_phase hafter]
        exact .cancelled _
      · intro other hne
        exact phase_congr (Store.get_remove_of_ne _ hne) (Store.get_remove_of_ne _ hne) Iff.rfl
  -- A run can post two events about the same job.
  | ran hnow hjobs hconfig hran => exact News.of_ran hran hjobs id
  | @configured _ call reg htreasury =>
      cases call with
      | _ => exact .silent _ (by simp [tracked, AdminCall.event])
  | _ => exact .silent _ (by simp [tracked])

/-! ## Reading the news -/

section Reading

variable {id : JobId} {events : List Event} {event : Event} {before after : Standing}

theorem hear_silent {fresh kept : Option IndexedJob}
    (h : ∀ event ∈ events, tracked event ≠ some id) :
    events.foldl (fun kept event => hear fresh id event kept) kept = kept := by
  induction events generalizing kept with
  | nil => rfl
  | cons event rest ih =>
      rw [List.foldl_cons, hear_of_untracked (h event List.mem_cons_self)]
      exact ih fun event hmem => h event (List.mem_cons_of_mem _ hmem)

/-- An entry that hears all news is right in every part but the balance. -/
theorem News.heard (h : News id events before after) (part : Part) :
    (events.foldl (fun kept event => hear after.job id event kept) before.job).map part.read =
      after.job.map part.read := by
  cases h with
  | silent standing hsilent => rw [hear_silent hsilent]
  | @ran job stops failures failures' runs lateness missed keeper success fee protocolFee balance
      nextRun digest
      hmissed hfee hfunded hbalance =>
      have hsilent : ∀ event ∈ missed, tracked event ≠ some id := by
        intro event hmem hid
        rw [hmissed event hmem] at hid
        cases hid
      have hstopped :
          ∀ fresh, (if stops = true then [Event.jobDeactivated id failures] else []).foldl
          (fun kept event => hear fresh id event kept) (some job) =
            some { job with active := if stops = true then false else job.active } := by
        intro fresh
        split
        · exact if_pos rfl
        · rfl
      -- The balance that an exhausted job is told to have is not a part.
      have hexhausted : ∀ fresh entry, ∃ told,
          (if balance < job.feePerRun then [Event.jobExhausted id balance]
          else []).foldl (fun kept event => hear fresh id event kept) (some entry) =
            some { entry with balance := told } := by
        intro fresh entry
        split
        · exact ⟨balance, if_pos rfl⟩
        · exact ⟨entry.balance, rfl⟩
      have hexecuted : ∀ fresh kept, hear fresh id
          (.jobExecuted id keeper success fee protocolFee runs nextRun lateness failures'
            digest) kept =
            kept.map fun job => { job with nextRun, runs, balance := job.balance - fee } :=
        fun _ _ => if_pos rfl
      simp only [List.foldl_append, hear_silent hsilent, Standing.job, hstopped]
      obtain ⟨told, htold⟩ := hexhausted (some { job with
        nextRun, balance, runs, active := if stops = true then false else job.active })
        { job with active := if stops = true then false else job.active }
      rw [htold, List.foldl_cons, List.foldl_nil, hexecuted]
      cases part with
      | _ => rfl
  | _ => simp [hear, tracked, Standing.job]

theorem News.tells (h : News id events before after) (part : Part) :
    Word.Tells (part.word id) part.read events before.job after.job :=
  .of_obeyed (fun event kept => hear after.job id event kept) _
    (fun event _ kept => part.obeys id event after.job kept) rfl (h.heard part)

/-- Balances stay right, or too small for a run. -/
theorem News.posted (h : News id events before after) (hunread : Unread id events) {balance : ℤ}
    (hagrees : ∀ job ∈ before.job, job.Agrees balance) :
    ∀ job ∈ after.job, job.Agrees (post id events balance) := by
  cases h with
  | silent standing hsilent =>
      rw [post_silent fun event hmem => posting_of_untracked (hsilent event hmem)]
      exact hagrees
  | created job => exact absurd ⟨rfl, rfl⟩ (hunread _ List.mem_cons_self)
  | updated job job' => exact absurd ⟨rfl, rfl⟩ (hunread _ List.mem_cons_self)
  | funded job =>
      rintro _ ⟨⟩
      exact .inl (by simp [posting, tracked, Posting.apply])
  | withdrawn job =>
      rintro _ ⟨⟩
      exact .inl (by simp [posting, tracked, Posting.apply])
  | @activeSet active job =>
      rintro _ ⟨⟩
      have hsame : post id [.jobActiveSet id active] balance = balance := by
        simp [posting, tracked, Posting.apply]
      rw [hsame]
      exact hagrees job rfl
  | cancelled job =>
      rintro _ ⟨⟩
  | @ran job stops failures failures' runs lateness missed keeper success fee protocolFee
      left nextRun digest
      hmissed hfee hfunded hleft =>
      rintro _ ⟨⟩
      have hold := hagrees job rfl
      have hsilent : ∀ event ∈ missed, posting id event = .nothing := by
        intro event hmem
        have huntracked : tracked event ≠ some id := by simp [hmissed event hmem]
        exact posting_of_untracked huntracked
      -- The balance of an exhausted run is told first, and the fee of the same run taken off it
      -- after.
      have hpost : post id ((if stops = true then [.jobDeactivated id failures] else []) ++
          (if left < job.feePerRun then [.jobExhausted id left] else []) ++ missed ++
          [.jobExecuted id keeper success fee protocolFee runs nextRun lateness failures' digest])
            balance =
            (if left < job.feePerRun then left else balance) - fee := by
        have hstopped : post id (if stops = true then [.jobDeactivated id failures]
            else []) balance = balance := by
          split
          · exact congrArg (Posting.apply balance) (if_pos rfl)
          · rfl
        have hexhausted :
            post id (if left < job.feePerRun then [.jobExhausted id left] else []) balance =
            if left < job.feePerRun then left else balance := by
          split
          · exact congrArg (Posting.apply balance) (if_pos rfl)
          · rfl
        rw [post_append, post_append, post_append, hstopped, hexhausted, post_silent hsilent]
        exact congrArg (Posting.apply _) (if_pos rfl)
      rw [hpost]
      -- One fee too small, but what is left does not cover a run either.
      simp only [IndexedJob.Agrees] at hold ⊢
      split
      · exact .inr ⟨by omega, by omega⟩
      · omega

theorem News.unread_of_told (h : News id events before after) {balance : ℤ} (hmem : event ∈ events)
    (htold : posting id event = .became balance) : Unread id events := by
  cases h with
  | silent standing hsilent => exact fun other hother hlooks => hsilent other hother hlooks.1
  | created job =>
      cases List.mem_singleton.mp hmem
      simp [posting, tracked] at htold
  | updated job job' =>
      cases List.mem_singleton.mp hmem
      simp [posting, tracked] at htold
  | @ran job stops failures failures' runs lateness missed keeper success fee protocolFee
      left nextRun digest
      hmissed hfee hfunded hleft =>
      rintro other hother ⟨hid, hasks⟩
      simp only [List.mem_append, List.mem_ite_nil_right, List.mem_singleton] at hother
      rcases hother with ((⟨-, rfl⟩ | ⟨-, rfl⟩) | hmissing) | rfl
      · cases hasks
      · cases hasks
      · rw [hmissed other hmissing] at hid
        cases hid
      · cases hasks
  | _ =>
      rintro other hother ⟨hid, hasks⟩
      cases List.mem_singleton.mp hother
      cases hasks

/-- So does a balance that an event of the news itself told. -/
theorem News.told (h : News id events before after) {first later : List Event} {balance : ℤ}
    (hevents : events = first ++ event :: later) (htold : posting id event = .became balance) :
    ∀ job ∈ after.job, job.Agrees (post id later balance) := by
  have hmem : event ∈ events := by simp [hevents]
  -- Whatever was posted before, the event replaces it.
  have hreplaced : ∀ start, post id events start = post id later balance := by
    intro start
    rw [hevents, post_append, post_cons, htold]
    rfl
  rw [← hreplaced ((before.job.map IndexedJob.balance).getD 0)]
  apply h.posted (h.unread_of_told hmem htold)
  intro job hjob
  rw [Option.mem_def.mp hjob]
  exact .inl rfl

theorem News.live_before (h : News id events before after) (hunread : Unread id events)
    (hlive : after.job.isSome = true) : before.job.isSome = true := by
  cases h with
  | silent => exact hlive
  | created job => exact absurd ⟨rfl, rfl⟩ (hunread _ List.mem_cons_self)
  | _ => rfl

theorem News.live_after (h : News id events before after)
    (hcancelled : ∀ refund, .jobCancelled id refund ∉ events)
    (hlive : before.job.isSome = true) : after.job.isSome = true := by
  cases h with
  | silent => exact hlive
  | cancelled job => exact absurd List.mem_cons_self (hcancelled _)
  | _ => rfl

theorem News.gone (h : News id events before after)
    (hgone : before = .gone ∨ ∃ refund, .jobCancelled id refund ∈ events) : after = .gone := by
  cases h with
  | silent standing hsilent =>
      rcases hgone with hgone | ⟨refund, hmem⟩
      · exact hgone
      · exact absurd rfl (hsilent _ hmem)
  | cancelled job => rfl
  | @ran job stops failures failures' runs lateness missed keeper success fee protocolFee
      left nextRun digest
      hmissed hfee hfunded hleft =>
      rcases hgone with hgone | ⟨refund, hmem⟩
      · cases hgone
      · simp only [List.mem_append, List.mem_ite_nil_right, List.mem_singleton, reduceCtorEq,
          and_false, false_or, or_false] at hmem
        cases hmissed _ hmem
  | _ => simp at hgone

end Reading

end SoroCron.KeeperBot
