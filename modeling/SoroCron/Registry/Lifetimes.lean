import SoroCron.Foundation.Lease
import SoroCron.Registry.Index

/-! # How long entries are kept

The persistent entries of jobs, the uses each entry point makes of them, and the registry on a
ledger that lets entries run out. Reading or writing an entry extends it, removing it ends it,
and a call that fails leaves it as it was.
-/

namespace SoroCron

open Outcome Lease

variable {World : Type}

def dayInLedgers : ℕ := 17280

def persistentExtendTo : ℕ := 30 * dayInLedgers

def persistentThreshold : ℕ := persistentExtendTo - dayInLedgers

/-- The terms of persistent entries on a network that starts them with `initial` ledgers. -/
def persistentTerms (initial : ℕ) : LeaseTerms where
  initial
  threshold := persistentThreshold
  extendTo := persistentExtendTo
  threshold_le := Nat.sub_le _ _

/-- The persistent entries that jobs are made of. -/
inductive Entry where
  | spec (id : JobId)
  | state (id : JobId)
  | ownerJobs (owner : Address)
  deriving DecidableEq

/-! ## What each entry point uses -/

def readJobParts (id : JobId) : List (Access Entry) := [.read (.state id), .read (.spec id)]

def readLeader (after : Option JobId) : List (Access Entry) :=
  after.toList.map fun leader => .read (.state leader)

def useAddOwnerJob (owner : Address) : List (Access Entry) :=
  [.read (.ownerJobs owner), .write (.ownerJobs owner)]

def useRemoveOwnerJob (jobs : JobTable) (owner : Address) (id : JobId) : List (Access Entry) :=
  .read (.ownerJobs owner) :: if id ∈ jobs.jobsByOwner owner then
    [.write (.ownerJobs owner)] else []

def useInsertJob (owner : Address) (params : JobParams) (id : JobId) : List (Access Entry) :=
  readLeader params.after ++ [.write (.spec id), .write (.state id)] ++ useAddOwnerJob owner

def useInsertJobs (owner : Address) : List (JobParams × ℤ) → JobId → List (Access Entry)
  | [], _ => []
  | (params, _) :: rest, id => useInsertJob owner params id ++ useInsertJobs owner rest (id + 1)

/-- The uses of an operation on a job, given its spec. -/
def usesOf (jobs : JobTable) (id : JobId) (uses : JobSpec → List (Access Entry)) :
    List (Access Entry) :=
  (jobs.specs.get id).elim [] uses

/-- A job operation that succeeds, in the order of its reads and writes. -/
def JobCall.accesses (jobs : JobTable) : JobCall → List (Access Entry)
  | .createJob owner params deposit =>
      readLeader params.after ++ useInsertJobs owner [(params, deposit)] jobs.nextJobId
  | .createJobs owner params deposits =>
      (params.zip deposits).flatMap (fun pair => readLeader pair.1.after) ++
        useInsertJobs owner (params.zip deposits) jobs.nextJobId
  | .updateJob id update =>
      readJobParts id ++
        usesOf jobs id (fun spec =>
          if update.after ≠ spec.after then readLeader update.after else []) ++
        [.write (.spec id), .write (.state id)]
  | .fundJob _ id _ => [.read (.state id), .write (.state id)]
  | .cancelJob id =>
      readJobParts id ++ [.remove (.spec id), .remove (.state id)] ++
        usesOf jobs id fun spec => useRemoveOwnerJob jobs spec.owner id
  | .withdrawJobBalance id _ => readJobParts id ++ [.write (.state id)]
  | .setJobActive id _ => readJobParts id ++ [.write (.state id)]
  | .proposeJobOwner id _ => [.read (.spec id)]
  | .acceptJobOwner id =>
      [.read (.spec id)] ++ usesOf jobs id (fun spec => useRemoveOwnerJob jobs spec.owner id) ++
        (jobs.pendingOwners.get id).elim [] useAddOwnerJob ++ [.write (.spec id)]

/-- The dependency is the last gate: the leader is read if every other gate let the job pass. -/
def useGates (host : Host World) (b : Batch World) (keeper : Address) (id : JobId) :
    List (Access Entry) :=
  match runGates host b.chain.reg b.chain.now keeper id with
  | .ok _ | .error .awaitingDependency =>
      usesOf b.chain.reg.jobs id fun spec => readLeader spec.after
  | .error _ => []

/-- The jobs of a call, one after the other. A rejected job was read but is not written. -/
def useRunJobs (host : Host World) (executor keeper : Address) :
    List JobId → Batch World → List (Access Entry)
  | [], _ => []
  | id :: rest, b =>
      readJobParts id ++ useGates host b keeper id ++
        match runJob host executor keeper id b with
        | .ok (.ok (), after) => .write (.state id) :: useRunJobs host executor keeper rest after
        | .ok (.error _, after) => useRunJobs host executor keeper rest after
        | .error _ => []

def RunCall.accesses (host : Host World) (ctx : Ctx) (c : Chain World) (call : RunCall) :
    List (Access Entry) :=
  match authorizeKeeper host ctx c.reg call.keeper with
  | .ok (executor, info) =>
      useRunJobs host executor call.keeper call.jobIds (startBatch c call.keeper info)
  | .error _ => []

/-- Keeper operations and admin calls use no entries of jobs. -/
def Call.accesses (host : Host World) (ctx : Ctx) (c : Chain World) : Call → List (Access Entry)
  | .job call => call.accesses c.reg.jobs
  | .run call => call.accesses host ctx c
  | .keeper _ => []
  | .admin _ => []

def accesses (host : Host World) (c : Chain World) : Action World → List (Access Entry)
  | .call ctx call =>
      match call.perform host ctx c with
      | .ok _ => call.accesses host ctx c
      | .error _ => []
  | _ => []

/-! ## A ledger that lets entries run out -/

/-- The chain and how long the entries of jobs are still kept. -/
structure Leased (World : Type) where
  chain : Chain World
  leases : Leases Entry

inductive LeasedAction (World : Type) where
  | act (action : Action World)
  /-- `ledgers` ledgers close. -/
  | close (ledgers : ℕ)
  /-- A submitted read-only call, such as `owner_jobs` or `get_job`. -/
  | read (entries : List Entry)

def LeasedAction.leaseStep (host : Host World) (c : Chain World) :
    LeasedAction World → LeaseStep Entry
  | .act action => .accesses (accesses host c action)
  | .close ledgers => .close ledgers
  | .read entries => .accesses (entries.map .read)

def LeasedAction.acts (host : Host World) (c : Chain World) : LeasedAction World → List (Act World)
  | .act action => SoroCron.acts host c action
  | _ => []

def leasedStep (host : Host World) (terms : LeaseTerms) (s : Leased World)
    (action : LeasedAction World) : Leased World where
  chain :=
    match action with
    | .act action => step host s.chain action
    | _ => s.chain
  leases := s.leases.step terms (action.leaseStep host s.chain)

/-- What a step did to entries and to jobs. -/
structure LeasedEvent (World : Type) where
  used : LeaseStep Entry
  done : List (Act World)

def leasedMachine (host : Host World) (terms : LeaseTerms) :
    Machine (Leased World) (LeasedAction World) (LeasedEvent World) where
  step := leasedStep host terms
  out s action := [⟨action.leaseStep host s.chain, action.acts host s.chain⟩]

/-- Whether the job was created or executed. -/
def LeasedEvent.runsJob (id : JobId) (event : LeasedEvent World) : Bool :=
  event.done.any fun
    | .job other (.created _ _ _) => other = id
    | .job other (.ran _) => other = id
    | _ => false

/-- How many ledgers closed over a stretch of a run. -/
def closed (events : List (LeasedEvent World)) : ℕ := closings (events.map LeasedEvent.used)

def LeasedAdmissible (host : Host World) (s : Leased World) : LeasedAction World → Prop
  | .act action => Admissible host s.chain action
  | _ => True

/-! ## Creations and runs touch their job -/

section Touches

variable {host : Host World} {ctx : Ctx} {c c' : Chain World} {action : Action World} {id : JobId}

theorem accesses_of_ok {call : Call} (h : call.perform host ctx c = .ok c') :
    accesses host c (.call ctx call) = call.accesses host ctx c := by
  rw [accesses, h]

theorem useRunJobs_reads {executor keeper : Address} {jobIds : List JobId} {b : Batch World}
    {e : Execution World} (h : e ∈ runsOf host executor keeper jobIds b) :
    ∀ one ∈ readJobParts e.jobId, one ∈ useRunJobs host executor keeper jobIds b := by
  intro one hone
  induction jobIds generalizing b with
  | nil => cases h
  | cons jobId rest ih =>
      unfold runsOf at h
      rw [useRunJobs, List.mem_append]
      revert h
      cases runJob host executor keeper jobId b with
      | error why =>
          intro h
          cases h
      | ok result =>
          obtain ⟨outcome, after⟩ := result
          cases outcome with
          | ok u =>
              intro h
              rcases List.mem_cons.mp h with rfl | hrest
              · exact .inl (List.mem_append_left _ hone)
              · exact .inr (List.mem_cons_of_mem _ (ih hrest))
          | error reason =>
              intro h
              exact .inr (ih h)

/-- A run reads both halves of its job. -/
theorem reads_of_ran {e : Execution World} (h : .job id (.ran e) ∈ acts host c action) :
    ∀ one ∈ readJobParts id, one ∈ accesses host c action := by
  obtain ⟨ctx, call, executor, info, ran, b, rfl, hauth, -, hmem, rfl⟩ := ran_mem_acts h
  rcases step_call_cases host c ctx (.run call) with ⟨hcall, -⟩ | ⟨-, hacts⟩
  · rw [accesses_of_ok hcall, Call.accesses, RunCall.accesses, hauth]
    exact useRunJobs_reads hmem
  · rw [hacts] at h
    cases h

theorem useInsertJobs_writes {owner other : Address} {params : JobParams} {deposit : ℤ}
    {jobs : List (JobParams × ℤ)} {next : JobId}
    (h : (.job id (.created other params deposit) : Act World) ∈ creationsOf owner jobs next) :
    .write (.spec id) ∈ useInsertJobs owner jobs next ∧
      .write (.state id) ∈ useInsertJobs owner jobs next := by
  induction jobs generalizing next with
  | nil => cases h
  | cons pair rest ih =>
      rcases List.mem_cons.mp h with hhead | htail
      · cases hhead
        simp [useInsertJobs, useInsertJob]
      · obtain ⟨hspec, hstate⟩ := ih htail
        exact ⟨List.mem_append_right _ hspec, List.mem_append_right _ hstate⟩

/-- A creation writes both halves of its job. -/
theorem writes_of_created {owner : Address} {params : JobParams} {deposit : ℤ}
    (h : .job id (.created owner params deposit) ∈ acts host c action) :
    .write (.spec id) ∈ accesses host c action ∧ .write (.state id) ∈ accesses host c action := by
  cases action with
  | call ctx call =>
      rcases step_call_cases host c ctx call with ⟨hcall, hacts⟩ | ⟨-, hacts⟩
      · rw [hacts] at h
        rw [accesses_of_ok hcall]
        cases call with
        | job call =>
            cases call with
            | createJob owner params deposit =>
                obtain ⟨hspec, hstate⟩ := useInsertJobs_writes h
                exact ⟨List.mem_append_right _ hspec, List.mem_append_right _ hstate⟩
            | createJobs owner params deposits =>
                obtain ⟨hspec, hstate⟩ := useInsertJobs_writes h
                exact ⟨List.mem_append_right _ hspec, List.mem_append_right _ hstate⟩
            | _ => simp [actsOf] at h
        | run call =>
            obtain ⟨executor, info, ran, b, -, -, -, hmade⟩ := runCall_eq_ok hcall
            rw [hmade] at h
            simp at h
        | keeper call => cases call <;> simp [actsOf] at h
        | admin call => simp [actsOf] at h
      · rw [hacts] at h
        cases h
  | _ => cases h

end Touches

/-! ## Entries of live jobs are kept -/

def jobEntries (id : JobId) (owner : Address) : List Entry :=
  [.spec id, .state id, .ownerJobs owner]

/-- What is there of a live job after some uses was there before or was written by them. -/
def Covers (used : List (Access Entry)) (jobs jobs' : JobTable) : Prop :=
  ∀ id owner, jobs'.ownerOf id = some owner → ∀ entry ∈ jobEntries id owner, .remove entry ∉ used ∧
    (.write entry ∈ used ∨ ∃ before, jobs.ownerOf id = some before ∧ entry ∈ jobEntries id before)

/-- Every entry of every live job is on the ledger. -/
def Held (leases : Leases Entry) (jobs : JobTable) : Prop :=
  ∀ id owner, jobs.ownerOf id = some owner →
    ∀ entry ∈ jobEntries id owner, (leases.ttl entry).isSome = true

section Covers

variable {host : Host World} {ctx : Ctx} {c c' : Chain World} {used later : List (Access Entry)}
  {jobs jobs' jobs'' : JobTable}

theorem Covers.of_same (hremoves : ∀ entry, .remove entry ∉ used)
    (hsame : ∀ id, jobs'.ownerOf id = jobs.ownerOf id) : Covers used jobs jobs' := by
  intro id owner howner entry hentry
  exact ⟨hremoves entry, .inr ⟨owner, (hsame id).symm.trans howner, hentry⟩⟩

theorem Covers.trans (hremoves : ∀ entry, .remove entry ∉ used) (hfirst : Covers used jobs jobs')
    (hsecond : Covers later jobs' jobs'') : Covers (used ++ later) jobs jobs'' := by
  intro id owner howner entry hentry
  obtain ⟨hkept, hthere⟩ := hsecond id owner howner entry hentry
  refine ⟨?_, ?_⟩
  · intro hremoved
    rcases List.mem_append.mp hremoved with hearly | hlate
    · exact hremoves entry hearly
    · exact hkept hlate
  · rcases hthere with hwritten | ⟨before, hbefore, hentry'⟩
    · exact .inl (List.mem_append_right _ hwritten)
    · exact (hfirst id before hbefore entry hentry').2.imp_left (List.mem_append_left _)

theorem Held.after {terms : LeaseTerms} {leases : Leases Entry} (hheld : Held leases jobs)
    (hcovers : Covers used jobs jobs') : Held (leases.step terms (.accesses used)) jobs' := by
  intro id owner howner entry hentry
  obtain ⟨hkept, hwritten | ⟨before, hbefore, hentry'⟩⟩ := hcovers id owner howner entry hentry
  · exact Leases.held_of_written hwritten hkept
  · exact Leases.held_of_kept (hheld id before hbefore entry hentry') hkept

theorem insertJobs_covers {owner : Address} {pairs : List (JobParams × ℤ)} {ids : List JobId}
    (h : insertJobs owner pairs c = .ok (ids, c')) :
    Covers (useInsertJobs owner pairs c.reg.jobs.nextJobId) c.reg.jobs c'.reg.jobs := by
  induction pairs generalizing c ids with
  | nil =>
      simp only [insertJobs, Except.ok.injEq, Prod.mk.injEq] at h
      rw [← h.2]
      exact .of_same (fun _ => List.not_mem_nil) fun _ => rfl
  | cons pair rest ih =>
      obtain ⟨params, deposit⟩ := pair
      simp only [insertJobs, bind_eq_ok, Prod.exists, insertJob_eq_ok, pure_eq_ok,
        Prod.mk.injEq] at h
      obtain ⟨_, next, ⟨-, rfl, rfl⟩, others, last, hrest, -, rfl⟩ := h
      have hkeeps : ∀ entry, .remove entry ∉ useInsertJob owner params c.reg.jobs.nextJobId := by
        intro entry
        simp [useInsertJob, readLeader, useAddOwnerJob]
      apply Covers.trans hkeeps _ (ih hrest)
      intro id who hwho entry hentry
      refine ⟨hkeeps entry, ?_⟩
      by_cases hnew : id = c.reg.jobs.nextJobId
      · have howner : who = owner := by
          simpa [JobTable.ownerOf, hnew, JobParams.toSpec] using hwho.symm
        subst hnew howner
        left
        simp only [jobEntries, List.mem_cons, List.not_mem_nil, or_false] at hentry
        rcases hentry with rfl | rfl | rfl
        all_goals simp [useInsertJob, useAddOwnerJob]
      · right
        refine ⟨who, ?_, hentry⟩
        simpa [JobTable.ownerOf, Store.get_set_of_ne _ _ hnew] using hwho

/-- Reading leaders first changes nothing. -/
theorem Covers.after_reads (hreads : ∀ one ∈ later, ∃ entry, one = .read entry)
    (h : Covers used jobs jobs') : Covers (later ++ used) jobs jobs' := by
  refine .trans ?_ (.of_same ?_ fun _ => rfl) h
  all_goals
    intro entry hremoved
    obtain ⟨other, hread⟩ := hreads _ hremoved
    cases hread

theorem readLeader_reads (after : Option JobId) :
    ∀ one ∈ readLeader after, ∃ entry, one = .read entry := by
  intro one hone
  obtain ⟨leader, -, rfl⟩ := List.mem_map.mp hone
  exact ⟨_, rfl⟩

theorem keeps_removeOwnerJob (jobs : JobTable) (owner : Address) (id : JobId) (entry : Entry) :
    .remove entry ∉ useRemoveOwnerJob jobs owner id := by
  unfold useRemoveOwnerJob
  split
  · simp
  · simp

theorem jobCall_covers {call : JobCall} (h : jobCall host ctx c call = .ok c') :
    Covers (call.accesses c.reg.jobs) c.reg.jobs c'.reg.jobs := by
  cases call with
  | createJob owner params deposit =>
      obtain ⟨created, h⟩ := Result.chain_eq_ok.mp h
      obtain ⟨-, -, -, paid, hpaid, hinsert⟩ := createJob_eq_ok h
      obtain ⟨-, rfl⟩ := Chain.transfer_eq_ok.mp hpaid
      have hcovers := insertJobs_covers (insertJobs_one hinsert)
      exact hcovers.after_reads (readLeader_reads params.after)
  | createJobs owner params deposits =>
      obtain ⟨created, h⟩ := Result.chain_eq_ok.mp h
      obtain ⟨-, -, -, -, paid, hpaid, hinsert⟩ := createJobs_eq_ok h
      obtain ⟨-, rfl⟩ := Chain.transfer_eq_ok.mp hpaid
      have hcovers := insertJobs_covers hinsert
      apply hcovers.after_reads
      intro one hone
      obtain ⟨pair, -, hread⟩ := List.mem_flatMap.mp hone
      exact readLeader_reads _ one hread
  | updateJob jobId update =>
      obtain ⟨-, spec, state, interval, leaderRuns, hparts, -, -, -, rfl⟩ := updateJob_eq_ok h
      have hspec := JobTable.specs_get_of_parts hparts
      refine .of_same ?_ ?_
      · intro entry
        simp only [JobCall.accesses, usesOf, hspec, Option.elim_some]
        split
        · simp [readJobParts, readLeader]
        · simp [readJobParts]
      · intro id
        rw [Chain.publish_reg]
        change ((c.reg.jobs.setSpec jobId (update.applyTo spec interval)).ownerOf id) = _
        rw [ownerOf_setSpec]
        split
        next heq =>
          rw [heq, ownerOf_of_parts hparts]
          rfl
        next => rfl
  | fundJob payer jobId amount =>
      obtain ⟨balance, h⟩ := Result.chain_eq_ok.mp h
      obtain ⟨-, -, state, -, -, -, rfl⟩ := fundJob_eq_ok h
      refine .of_same ?_ fun id => rfl
      simp [JobCall.accesses]
  | cancelJob jobId =>
      obtain ⟨refund, h⟩ := Result.chain_eq_ok.mp h
      obtain ⟨spec, state, paid, hparts, -, hpaid, -, rfl⟩ := cancelJob_eq_ok.mp h
      have hspec := JobTable.specs_get_of_parts hparts
      rw [Chain.payOut_frame hpaid]
      intro id owner howner entry hentry
      have howner' : (if id = jobId then none else c.reg.jobs.ownerOf id) = some owner := by
        rw [← howner]
        simp only [JobTable.ownerOf, Chain.publish_reg, JobTable.removeOwnerJob_specs,
          JobTable.removeJob_specs, Store.get_remove]
        split <;> rfl
      -- The cancelled job has no owner left, so only others are asked about.
      have hother : id ≠ jobId := by
        intro heq
        rw [if_pos heq] at howner'
        cases howner'
      rw [if_neg hother] at howner'
      refine ⟨?_, .inr ⟨owner, howner', hentry⟩⟩
      simp only [JobCall.accesses, usesOf, hspec, Option.elim_some, List.mem_append, not_or]
      refine ⟨⟨by simp [readJobParts], ?_⟩, keeps_removeOwnerJob _ _ _ entry⟩
      simp only [jobEntries, List.mem_cons, List.not_mem_nil, or_false] at hentry
      rcases hentry with rfl | rfl | rfl
      all_goals simp [hother]
  | withdrawJobBalance jobId amount =>
      obtain ⟨balance, h⟩ := Result.chain_eq_ok.mp h
      obtain ⟨spec, state, -, -, -, -, -, -, -, paid, hpaid, rfl⟩ := withdrawJobBalance_eq_ok.mp h
      obtain ⟨-, rfl⟩ := Chain.transfer_eq_ok.mp hpaid
      refine .of_same ?_ fun id => rfl
      simp [JobCall.accesses, readJobParts]
  | setJobActive jobId active =>
      obtain ⟨spec, state, -, -, rfl⟩ := setJobActive_eq_ok h
      refine .of_same ?_ fun id => rfl
      simp [JobCall.accesses, readJobParts]
  | proposeJobOwner jobId newOwner =>
      obtain ⟨spec, -, -, rfl⟩ := proposeJobOwner_eq_ok h
      refine .of_same ?_ ?_
      · simp [JobCall.accesses]
      · intro id
        dsimp only [Chain.publish_reg]
        split
        · rfl
        · rfl
  | acceptJobOwner jobId =>
      obtain ⟨spec, newOwner, hspec, hoffered, -, rfl⟩ := acceptJobOwner_eq_ok h
      intro id owner howner entry hentry
      have hset : (c.reg.jobs.setSpec jobId { spec with owner := newOwner }).ownerOf id =
          if id = jobId then some newOwner else c.reg.jobs.ownerOf id := ownerOf_setSpec _ id
      have howner' : (if id = jobId then some newOwner else c.reg.jobs.ownerOf id) = some owner :=
        hset.symm.trans howner
      have hkept : ∀ other, .remove other ∉ (JobCall.acceptJobOwner jobId).accesses c.reg.jobs := by
        intro other
        simp [JobCall.accesses, usesOf, hspec, hoffered, keeps_removeOwnerJob, useAddOwnerJob]
      refine ⟨hkept entry, ?_⟩
      by_cases heq : id = jobId
      · rw [if_pos heq] at howner'
        cases howner'
        subst heq
        simp only [jobEntries, List.mem_cons, List.not_mem_nil, or_false] at hentry
        -- Spec and new owner's list are written; the state stays as it was.
        rcases hentry with rfl | rfl | rfl
        · left
          simp [JobCall.accesses]
        · right
          refine ⟨spec.owner, ?_, by simp [jobEntries]⟩
          rw [JobTable.ownerOf, hspec, Option.map_some]
        · left
          simp [JobCall.accesses, hoffered, useAddOwnerJob]
      · rw [if_neg heq] at howner'
        exact .inr ⟨owner, howner', hentry⟩

theorem keeps_runJobs {executor keeper : Address} {jobIds : List JobId} {b : Batch World}
    (entry : Entry) : .remove entry ∉ useRunJobs host executor keeper jobIds b := by
  induction jobIds generalizing b with
  | nil => exact List.not_mem_nil
  | cons id rest ih =>
      have hgates : .remove entry ∉ useGates host b keeper id := by
        have hleader : .remove entry ∉ usesOf b.chain.reg.jobs id
            fun spec => readLeader spec.after := by
          unfold usesOf
          cases b.chain.reg.jobs.specs.get id with
          | none => exact List.not_mem_nil
          | some spec => simp [readLeader]
        unfold useGates
        split
        · exact hleader
        · exact hleader
        · exact List.not_mem_nil
      rw [useRunJobs]
      simp only [List.mem_append, not_or]
      refine ⟨⟨by simp [readJobParts], hgates⟩, ?_⟩
      split
      · simp [ih]
      · exact ih
      · exact List.not_mem_nil

theorem call_covers {call : Call} (hsound : c.Sound host) (h : call.perform host ctx c = .ok c') :
    Covers (call.accesses host ctx c) c.reg.jobs c'.reg.jobs := by
  cases call with
  | job call => exact jobCall_covers h
  | run call =>
      obtain ⟨executor, info, ran, b, hauth, hruns, hfinish, -⟩ := runCall_eq_ok h
      have hunder := runJobs_underway hsound.config hsound.jobs hruns
      rw [finish_eq_ok hunder.keeperFees hunder.protocolFees hfinish, Call.accesses,
        RunCall.accesses, hauth]
      refine .of_same keeps_runJobs ?_
      intro id
      change (b.chain.reg.jobs.specs.get id).map JobSpec.owner = _
      rw [hunder.toUnderway.specs]
      rfl
  | keeper call =>
      rw [(keeperCall_keepersOnly h).reg]
      exact .of_same (fun _ => List.not_mem_nil) fun _ => rfl
  | admin call =>
      obtain ⟨-, -, hc⟩ := adminCall_eq_ok h
      rw [hc, Chain.publish_reg, (adminCall_settingsOnly call c.reg c.now).jobs]
      exact .of_same (fun _ => List.not_mem_nil) fun _ => rfl

theorem step_covers (action : Action World) (hsound : c.Sound host) :
    Covers (accesses host c action) c.reg.jobs (step host c action).reg.jobs := by
  have hidle : Covers [] c.reg.jobs c.reg.jobs := .of_same (fun _ => List.not_mem_nil) fun _ => rfl
  cases action with
  | call ctx call =>
      cases hcall : call.perform host ctx c with
      | ok c' =>
          rw [accesses_of_ok hcall, step_call_ok hcall]
          exact call_covers hsound hcall
      | error why =>
          rw [accesses, hcall, step, hcall]
          exact hidle
  | _ => exact hidle

end Covers

end SoroCron
