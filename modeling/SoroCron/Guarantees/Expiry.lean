import SoroCron.Registry.Deployment
import SoroCron.Registry.Lifetimes

/-! # What a job that keeps running keeps

Every execution extends its job's spec and state, so a job that runs often enough never loses
them. No execution touches the owner's list, which `cancel_job` also needs: it lasts as long as
somebody else touches it, and runs out otherwise.
-/

namespace SoroCron

open Lease

variable {World : Type} {host : Host World} {terms : LeaseTerms} {c : Chain World}
  {s : Leased World}
  {actions : List (LeasedAction World)} {id : JobId}

/-! ## Runs of the leased registry -/

theorem leased_run (s : Leased World) (actions : List (LeasedAction World)) :
    ((leasedMachine host terms).run s actions).leases =
      s.leases.run terms (((leasedMachine host terms).outputs s actions).map LeasedEvent.used) := by
  induction actions generalizing s with
  | nil => rfl
  | cons action rest ih => exact ih _

/-- What holds of every state of a run. -/
structure LeasedSound (host : Host World) (s : Leased World) : Prop where
  chain : s.chain.Sound host
  held : Held s.leases s.chain.reg.jobs

theorem leasedStep_sound {action : LeasedAction World} (hsound : LeasedSound host s)
    (hadm : LeasedAdmissible host s action) :
    LeasedSound host ((leasedMachine host terms).step s action) := by
  cases action with
  | act action =>
      exact ⟨step_sound hsound.chain hadm, hsound.held.after (step_covers action hsound.chain)⟩
  | close ledgers =>
      refine ⟨hsound.chain, ?_⟩
      intro id owner howner entry hentry
      have hkept : ((s.leases.step terms (.close ledgers)).ttl entry).isSome = true :=
        Leases.held_of_close ledgers (hsound.held id owner howner entry hentry)
      exact hkept
  | read entries =>
      refine ⟨hsound.chain, hsound.held.after (.of_same ?_ fun _ => rfl)⟩
      simp

/-- A freshly deployed registry at some ledger. -/
def freshlyLeased (c : Chain World) (ledger : ℕ) : Leased World where
  chain := c
  leases := { ledger, liveUntil := ∅ }

theorem Deployed.leasedSound (h : Deployed host c) (ledger : ℕ) :
    LeasedSound host (freshlyLeased c ledger) := by
  refine ⟨h.sound, ?_⟩
  intro id owner howner
  obtain ⟨config, hreg, -, -⟩ := h.fresh
  rw [freshlyLeased, hreg, JobTable.ownerOf, Store.get_empty] at howner
  cases howner

/-! ## Stretches of a run -/

/-- Something happens in every stretch of a run over which `ledgers` ledgers close and which the
job, whose spec it may depend on, outlives. -/
def InEveryStretch (host : Host World) (terms : LeaseTerms) (ledgers : ℕ) (s : Leased World)
    (actions : List (LeasedAction World)) (id : JobId)
    (happens : JobSpec → LeasedEvent World → Bool) : Prop :=
  ∀ first stretch rest, actions = first ++ stretch ++ rest →
    ∀ spec state,
        ((leasedMachine host terms).run s (first ++ stretch)).chain.reg.jobs.getJobParts id =
        some (spec, state) →
      let events := (leasedMachine host terms).outputs
        ((leasedMachine host terms).run s first) stretch
      ledgers ≤ closed events → ∃ event ∈ events, happens spec event = true

/-- An entry that is new in a run, and that something touches in every stretch, has not run out. -/
theorem alive_of_stretches {happens : JobSpec → LeasedEvent World → Bool} {entry : Entry}
    (hsound : LeasedSound host s) (hnew : s.leases.ttl entry = none)
    (halong : (leasedMachine host terms).Along (LeasedAdmissible host) s actions)
    (hoften : InEveryStretch host terms terms.threshold s actions id happens) {spec : JobSpec}
    {state : JobState}
    (hparts : ((leasedMachine host terms).run s actions).chain.reg.jobs.getJobParts id =
      some (spec, state))
    (hentry : entry ∈ jobEntries id spec.owner)
    (htouches : ∀ (at' : Leased World) (action : LeasedAction World),
      ∀ event ∈ (leasedMachine host terms).out at' action, happens spec event = true →
        event.used.touches entry = true) :
    ((leasedMachine host terms).run s actions).leases.Alive entry := by
  have hlast := Machine.invariant_run (fun _ _ => leasedStep_sound) hsound halong
  have hheld := hlast.held id spec.owner (ownerOf_of_parts hparts) entry hentry
  obtain ⟨left, hleft⟩ := Option.isSome_iff_exists.mp hheld
  refine ⟨left, hleft, ?_⟩
  rw [leased_run] at hleft
  refine Leases.lasting hnew ?_ hleft
  intro first last hsplit hlong
  obtain ⟨events, stretch, hevents, rfl, rfl⟩ := List.map_eq_append_iff.mp hsplit
  obtain ⟨early, late, rfl, -, rfl⟩ := Machine.outputs_split (fun _ _ => rfl) hevents
  obtain ⟨event, hmem, hhappens⟩ :=
    hoften early late [] (List.append_nil _).symm spec state hparts hlong
  refine ⟨event.used, List.mem_map_of_mem hmem, ?_⟩
  have hall := Machine.outputs_forall (I := fun _ => True)
    (P := fun event => happens spec event = true → event.used.touches entry = true)
      (fun _ _ _ _ => trivial)
    (fun at' action _ _ => htouches at' action) trivial (Machine.along_append.mp halong).2
  exact hall event hmem hhappens

/-! ## What the job itself needs -/

theorem touches_of_mem {used : List (Access Entry)} {one : Access Entry} {entry : Entry}
    (hmem : one ∈ used)
    (htouches : one.touches entry = true) : (LeaseStep.accesses used).touches entry = true :=
  List.any_eq_true.mpr ⟨one, hmem, htouches⟩

/-- An event that creates or runs a job touches both its halves. -/
theorem touches_of_runsJob (at' : Leased World) (action : LeasedAction World) :
    ∀ event ∈ (leasedMachine host terms).out at' action, event.runsJob id = true →
      event.used.touches (.spec id) = true ∧ event.used.touches (.state id) = true := by
  intro event hevent hruns
  cases List.mem_singleton.mp hevent
  obtain ⟨act, hact, hone⟩ := List.any_eq_true.mp hruns
  cases action with
  | act action =>
      change act ∈ acts host at'.chain action at hact
      cases act with
      | keeper who act => cases hone
      | job other act =>
          cases act with
          | created owner params deposit =>
              cases of_decide_eq_true hone
              obtain ⟨hspec, hstate⟩ := writes_of_created hact
              exact ⟨touches_of_mem hspec (by simp), touches_of_mem hstate (by simp)⟩
          | ran execution =>
              cases of_decide_eq_true hone
              have hreads := reads_of_ran hact
              exact ⟨touches_of_mem (hreads (.read (.spec id)) (by simp [readJobParts])) (by simp),
                touches_of_mem (hreads (.read (.state id)) (by simp [readJobParts])) (by simp)⟩
          | _ => cases hone
  | close ledgers => cases hact
  | read entries => cases hact

/-! ## Along runs -/

variable {initial ledger : ℕ}

/-- The entries that `execute`, `withdraw_job_balance` and `cancel_job` read for a job. -/
structure Kept (leases : Leases Entry) (id : JobId) (owner : Address) : Prop where
  spec : leases.Alive (.spec id)
  state : leases.Alive (.state id)
  ownerJobs : leases.Alive (.ownerJobs owner)

/-- The job was created or executed at least once in every threshold. -/
def KeepsRunning (host : Host World) (initial : ℕ) (s : Leased World)
    (actions : List (LeasedAction World)) (id : JobId) : Prop :=
  InEveryStretch host (persistentTerms initial) persistentThreshold s actions id fun _ event =>
    event.runsJob id

/-- Some call read or wrote the list of the job's owner at least once in every threshold. -/
def KeepsListed (host : Host World) (initial : ℕ) (s : Leased World)
    (actions : List (LeasedAction World)) (id : JobId) : Prop :=
  InEveryStretch host (persistentTerms initial) persistentThreshold s actions id fun spec event =>
    event.used.touches (.ownerJobs spec.owner)

theorem InEveryStretch.take {happens : JobSpec → LeasedEvent World → Bool} {ledgers : ℕ}
    {first rest : List (LeasedAction World)}
    (h : InEveryStretch host terms ledgers s (first ++ rest) id happens) :
    InEveryStretch host terms ledgers s first id happens := by
  rintro early stretch late rfl
  exact h early stretch (late ++ rest) (List.append_assoc _ _ _)

/-- A job that keeps running keeps its spec and its state, whatever its owner does. -/
theorem halves_kept (hstart : Deployed host c)
    (halong : (leasedMachine host (persistentTerms initial)).Along (LeasedAdmissible host)
      (freshlyLeased c ledger)
      actions)
    (hruns : KeepsRunning host initial (freshlyLeased c ledger) actions id) {spec : JobSpec}
    {state : JobState}
    (hparts : ((leasedMachine host (persistentTerms initial)).run (freshlyLeased c ledger)
      actions).chain.reg.jobs.getJobParts id = some (spec, state)) :
    let leases :=
  ((leasedMachine host (persistentTerms initial)).run (freshlyLeased c ledger) actions).leases
    leases.Alive (.spec id) ∧ leases.Alive (.state id) := by
  have hsound := hstart.leasedSound ledger
  refine ⟨?_, ?_⟩
  · apply alive_of_stretches hsound rfl halong hruns hparts (by simp [jobEntries])
    intro at' action event hevent hruns
    exact (touches_of_runsJob at' action event hevent hruns).1
  · apply alive_of_stretches hsound rfl halong hruns hparts (by simp [jobEntries])
    intro at' action event hevent hruns
    exact (touches_of_runsJob at' action event hevent hruns).2

/-- It keeps the list of its owner too, if somebody touches that list as often. -/
theorem running_job_kept (hstart : Deployed host c)
    (halong : (leasedMachine host (persistentTerms initial)).Along (LeasedAdmissible host)
      (freshlyLeased c ledger) actions)
    (hruns : KeepsRunning host initial (freshlyLeased c ledger) actions id)
    (hlisted : KeepsListed host initial (freshlyLeased c ledger) actions id) :
    ∀ first rest, actions = first ++ rest →
      let reached := (leasedMachine host (persistentTerms initial)).run
        (freshlyLeased c ledger) first
      ∀ spec state, reached.chain.reg.jobs.getJobParts id = some (spec, state) →
        Kept reached.leases id spec.owner := by
  rintro first rest rfl reached spec state hparts
  have hearly := (Machine.along_append.mp halong).1
  obtain ⟨hspec, hstate⟩ := halves_kept hstart hearly hruns.take hparts
  refine ⟨hspec, hstate, ?_⟩
  apply alive_of_stretches (hstart.leasedSound ledger) rfl hearly hlisted.take hparts
    (by simp [jobEntries])
  intro at' action event hevent htouches
  exact htouches

/-! ## What nobody touches -/

theorem useRunJobs_unlisted {executor keeper : Address} {jobIds : List JobId} {b : Batch World}
    (owner : Address) :
    (useRunJobs host executor keeper jobIds b).any (·.touches (.ownerJobs owner)) = false := by
  induction jobIds generalizing b with
  | nil => rfl
  | cons id rest ih =>
      have hgates : (useGates host b keeper id).any (·.touches (.ownerJobs owner)) = false := by
        have hleader : (usesOf b.chain.reg.jobs id fun spec => readLeader spec.after).any
            (·.touches (.ownerJobs owner)) = false := by
          unfold usesOf
          cases b.chain.reg.jobs.specs.get id with
          | none => rfl
          | some spec => simp [readLeader]
        unfold useGates
        split
        · exact hleader
        · exact hleader
        · rfl
      rw [useRunJobs, List.any_append, List.any_append, hgates]
      split
      · rw [List.any_cons, ih]
        simp [readJobParts]
      · rw [ih]
        simp [readJobParts]
      · simp [readJobParts]

/-- No execution touches any owner's list. -/
theorem runs_leave_lists {ctx : Ctx} (call : RunCall) (owner : Address) :
    (LeasedAction.leaseStep host c (.act (.call ctx (.run call)))).touches
      (.ownerJobs owner) = false := by
  change (accesses host c (.call ctx (.run call))).any (·.touches (.ownerJobs owner)) = false
  cases hcall : (Call.run call).perform host ctx c with
  | error why =>
      rw [accesses, hcall]
      rfl
  | ok c' =>
      obtain ⟨executor, info, ran, b, hauth, -⟩ := runCall_eq_ok hcall
      rw [accesses_of_ok hcall, Call.accesses, RunCall.accesses, hauth]
      exact useRunJobs_unlisted owner

/-- A list that nobody touches for as long as entries are kept has run out, however often its
owner's jobs ran. -/
theorem list_lapses (hstart : Deployed host c) {first stretch : List (LeasedAction World)}
    (halong : (leasedMachine host terms).Along (LeasedAdmissible host) (freshlyLeased c ledger)
      (first ++ stretch))
    {spec : JobSpec} {state : JobState}
    (hparts : ((leasedMachine host terms).run (freshlyLeased c ledger)
      (first ++ stretch)).chain.reg.jobs.getJobParts id = some (spec, state))
    (hquiet : ∀ event ∈ (leasedMachine host terms).outputs
      ((leasedMachine host terms).run (freshlyLeased c ledger)
      first) stretch, event.used.touches (.ownerJobs spec.owner) = false)
    (hlong : max terms.initial terms.extendTo ≤ closed ((leasedMachine host terms).outputs
      ((leasedMachine host terms).run (freshlyLeased c ledger) first) stretch)) :
    ((leasedMachine host terms).run (freshlyLeased c ledger) (first ++ stretch)).leases.ttl
      (.ownerJobs spec.owner) = some 0 := by
  have hlast := Machine.invariant_run (fun _ _ => leasedStep_sound)
    (hstart.leasedSound ledger) halong
  have hheld := hlast.held id spec.owner (ownerOf_of_parts hparts) (.ownerJobs spec.owner)
    (by simp [jobEntries])
  obtain ⟨left, hleft⟩ := Option.isSome_iff_exists.mp hheld
  rw [hleft]
  rw [leased_run, Machine.outputs_append, List.map_append] at hleft
  have hzero := Leases.lapsed rfl ?_ hlong hleft
  · rw [hzero]
  · intro step hstep
    obtain ⟨event, hevent, rfl⟩ := List.mem_map.mp hstep
    exact hquiet event hevent

/-! ## A month of runs -/

/-- What happens in a stretch can be checked stretch by stretch. -/
theorem InEveryStretch.of_checks {happens : JobSpec → LeasedEvent World → Bool} {ledgers : ℕ}
    (h : ∀ i ∈ List.range (actions.length + 1), ∀ j ∈ List.range (actions.length + 1),
      let before := (leasedMachine host terms).run s (actions.take i)
      let stretch := (actions.drop i).take j
      let events := (leasedMachine host terms).outputs before stretch
      ledgers ≤ closed events →
        (((leasedMachine host terms).run before stretch).chain.reg.jobs.getJobParts id).all
          (fun parts =>
          events.any (happens parts.1)) = true) :
    InEveryStretch host terms ledgers s actions id happens := by
  rintro first stretch rest rfl spec state hparts events hlong
  have hfirst : first.length ∈ List.range ((first ++ stretch ++ rest).length + 1) := by
    simp only [List.mem_range, List.length_append]
    omega
  have hstretch : stretch.length ∈ List.range ((first ++ stretch ++ rest).length + 1) := by
    simp only [List.mem_range, List.length_append]
    omega
  have hcheck := h first.length hfirst stretch.length hstretch
  rw [List.append_assoc, List.take_left, List.drop_left, List.take_left] at hcheck
  rw [Machine.run_append] at hparts
  have hany := hcheck hlong
  rw [hparts] at hany
  exact List.any_eq_true.mp hany

/-- A job is created and run; half a month later it is run again, and another half passes. -/
def monthRun : List (LeasedAction Unit) :=
  firstRun.map .act ++ [.close 259200, .act (.advance 1297060),
    .act (.call ⟨[⟨4⟩]⟩ (.run (.execute ⟨4⟩ 0))), .close 259200]

theorem monthRun_keepsRunning :
    KeepsRunning plainHost 4096 (freshlyLeased (deployment ⟨3⟩ 1000 100 10 1000) 1)
    monthRun 0 :=
  .of_checks (by decide +kernel)

/-- After a month of runs the job's owner has lost its list. -/
theorem owner_list_lapses :
    let s := freshlyLeased (deployment ⟨3⟩ 1000 100 10 1000) 1
    let reached := (leasedMachine plainHost (persistentTerms 4096)).run s monthRun
    Deployed plainHost (deployment ⟨3⟩ 1000 100 10 1000) ∧
      (leasedMachine plainHost (persistentTerms 4096)).Along
        (LeasedAdmissible plainHost) s monthRun ∧
      KeepsRunning plainHost 4096 s monthRun 0 ∧
      (reached.chain.reg.jobs.specs.get 0).map JobSpec.owner = some ⟨5⟩ ∧
      reached.leases.ttl (.ownerJobs ⟨5⟩) = some 0 := by
  refine ⟨deployment_deployed ⟨3⟩ 10 1000 (by decide) (by decide), ?_, monthRun_keepsRunning,
    by decide +kernel,
    by decide +kernel⟩
  simp [monthRun, firstRun, Machine.Along, LeasedAdmissible, Admissible, Call.WellTyped,
    JobParams.WellTyped, minutely, u64Max, i128Max]

/-- The same month, with the list read by somebody when the job is run again. -/
def tendedRun : List (LeasedAction Unit) :=
  firstRun.map .act ++ [.close 259200, .act (.advance 1297060),
    .act (.call ⟨[⟨4⟩]⟩ (.run (.execute ⟨4⟩ 0))), .read [.ownerJobs ⟨5⟩], .close 259200]

theorem running_job_kept_tendedRun :
    let reached := (leasedMachine plainHost (persistentTerms 4096)).run
      (freshlyLeased (deployment ⟨3⟩ 1000 100 10 1000) 1) tendedRun
    Kept reached.leases 0 ⟨5⟩ := by
  intro reached
  have hadmissible : (leasedMachine plainHost (persistentTerms 4096)).Along
      (LeasedAdmissible plainHost)
      (freshlyLeased (deployment ⟨3⟩ 1000 100 10 1000) 1) tendedRun := by
    simp [tendedRun, firstRun, Machine.Along, LeasedAdmissible, Admissible, Call.WellTyped,
      JobParams.WellTyped, minutely, u64Max, i128Max]
  have hruns : KeepsRunning plainHost 4096
      (freshlyLeased (deployment ⟨3⟩ 1000 100 10 1000) 1) tendedRun 0 :=
    .of_checks (by decide +kernel)
  have hlisted : KeepsListed plainHost 4096
      (freshlyLeased (deployment ⟨3⟩ 1000 100 10 1000) 1) tendedRun 0 :=
    .of_checks (by decide +kernel)
  obtain ⟨⟨spec, state⟩, hparts⟩ : ∃ parts, reached.chain.reg.jobs.getJobParts 0 = some parts :=
    Option.isSome_iff_exists.mp (by decide +kernel)
  have howner : reached.chain.reg.jobs.ownerOf 0 = some ⟨5⟩ := by decide +kernel
  have hspec : spec.owner = ⟨5⟩ := Option.some.inj ((ownerOf_of_parts hparts).symm.trans howner)
  rw [← hspec]
  exact running_job_kept (deployment_deployed ⟨3⟩ 10 1000 (by decide) (by decide)) hadmissible
    hruns hlisted
    tendedRun [] (List.append_nil _).symm spec state hparts

end SoroCron
