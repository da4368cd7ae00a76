import SoroCron.Guarantees.Batch
import SoroCron.Registry.Entries
import SoroCron.Registry.Tallies
import SoroCron.Registry.Windows

/-! # The order of a batch

The jobs of a batch share the caller's record, the payout, the rotation and the records of the
keepers whose windows they used up. A job's turn still comes to the same whichever jobs had theirs
before, as long as it does not follow one of them.
-/

namespace SoroCron

open Outcome Bounded

variable {World : Type} {host : Host World} {ctx : Ctx} {executor keeper : Address} {info : Keeper}
  {c : Chain World} {jobIds earlier : List JobId} {id : JobId} {b b' : Batch World}

/-! ## What the order must not show -/

/-- No listed job follows another one. -/
def NoFollowers (jobs : JobTable) (jobIds : List JobId) : Prop :=
  ∀ id ∈ jobIds, ∀ spec, jobs.specs.get id = some spec → ∀ leader ∈ spec.after, leader ∈ jobIds →
    leader = id

/-- Two calls with one answer that move the same tokens from and to these holders. -/
structure SameCall {Answer : Type} (holders : List Address)
    (call call' : OutsideCall World Answer) : Prop where
  answer : call'.answer = call.answer
  moved : only holders call'.moved = only holders call.moved

/-- The call of a job's target, after its resolver's. -/
def targetCall (host : Host World) (executor : Address) (id : JobId) (spec : JobSpec)
    (b : Batch World) : OutsideCall World TargetOutcome :=
  host.tryExecute (b.asked host id spec).chain.toSurroundings executor spec.target
    spec.function spec.args

/-- Whichever other listed jobs had their turns before, a job's resolver and target answer as they
do at the start of the call and move the same tokens from and to those whom the call pays. -/
def OrderBlind (host : Host World) (executor keeper : Address) (info : Keeper) (c : Chain World)
    (jobIds : List JobId) : Prop :=
  ∀ id ∈ jobIds, ∀ spec, c.reg.jobs.specs.get id = some spec →
    ∀ earlier ran b, earlier.Nodup → (∀ other ∈ earlier, other ∈ jobIds ∧ other ≠ id) →
      runJobs host executor keeper earlier (startBatch c keeper info) = .ok (ran, b) →
      SameCall (payees host c.reg.config keeper) (resolverAllows host c.toSurroundings id spec)
          (resolverAllows host b.chain.toSurroundings id spec) ∧
        SameCall (payees host c.reg.config keeper)
          (targetCall host executor id spec (startBatch c keeper info))
          (targetCall host executor id spec b)

/-- Two chains with the same job states, keeper records and recent misses, the same balances of
these holders, and the same recent lateness of every keeper but one. -/
structure SameBooks (holders : List Address) (keeper : Address) (c c' : Chain World) : Prop where
  states : ∀ id, c'.reg.jobs.states.get id = c.reg.jobs.states.get id
  infos : ∀ who, c'.reg.keepers.infos.get who = c.reg.keepers.infos.get who
  misses : ∀ who, (c'.reg.keepers.getKeeperRecent who).misses =
    (c.reg.keepers.getKeeperRecent who).misses
  lateness : ∀ who, who ≠ keeper →
    (c'.reg.keepers.getKeeperRecent who).lateness = (c.reg.keepers.getKeeperRecent who).lateness
  balances : ∀ token, ∀ holder ∈ holders, c'.balances token holder = c.balances token holder

/-! ## Turns in a row -/

theorem runJobs_append (first second : List JobId) :
    runJobs host executor keeper (first ++ second) b = (do
      let (ran, middle) ← runJobs host executor keeper first b
      let (ran', last) ← runJobs host executor keeper second middle
      return (ran ++ ran', last)) := by
  induction first generalizing b with
  | nil =>
      rw [List.nil_append]
      change _ = (do
        let (ran', last) ← runJobs host executor keeper second b
        return ([] ++ ran', last))
      cases runJobs host executor keeper second b <;> rfl
  | cons id rest ih =>
      simp only [List.cons_append, runJobs]
      cases hjob : runJob host executor keeper id b with
      | error why => rfl
      | ok result =>
          change (do
            let (ran, last) ← runJobs host executor keeper (rest ++ second) result.2
            return (result.1.isOk :: ran, last)) = _
          rw [ih]
          change _ = (do
            let (ran, middle) ← (do
              let (ran, b) ← runJobs host executor keeper rest result.2
              return (result.1.isOk :: ran, b) : Result (List Bool × Batch World))
            let (ran', last) ← runJobs host executor keeper second middle
            return (ran ++ ran', last))
          cases runJobs host executor keeper rest result.2 with
          | error why => rfl
          | ok middle =>
              cases hlast : runJobs host executor keeper second middle.2 with
              | error why =>
                  simp [bind, Except.bind, pure, Except.pure, hlast]
              | ok last => simp [bind, Except.bind, pure, Except.pure, hlast]

theorem performRun_eq_error {admission : Admission} {why : Failure}
    (h : performRun host executor keeper id admission b = .error why) : why = .trap .overflow := by
  simp only [performRun, bind_eq_error, orTrap_eq_error] at h
  tauto

/-- A turn fails only where an amount or a time overflows. -/
theorem runJob_eq_error {why : Failure} (h : runJob host executor keeper id b = .error why) :
    why = .trap .overflow := by
  unfold runJob at h
  split at h
  · cases h
  · dsimp only at h
    split at h
    · rcases bind_eq_error.mp h with hrun | ⟨_, _, hdone⟩
      · exact performRun_eq_error hrun
      · cases hdone
    · cases h

theorem runJobs_eq_error {why : Failure} (h : runJobs host executor keeper jobIds b = .error why) :
    why = .trap .overflow := by
  induction jobIds generalizing b with
  | nil => cases h
  | cons id rest ih =>
      rcases bind_eq_error.mp h with hjob | ⟨_, _, hothers⟩
      · exact runJob_eq_error hjob
      · rcases bind_eq_error.mp hothers with hrest | ⟨_, _, hdone⟩
        · exact ih hrest
        · cases hdone

/-! ## One turn -/

/-- The gates of a job look at its own parts, at the state of its leader, and at what no run
changes. -/
theorem Admitted.congr {reg reg' : Registry} {now : Timestamp} {admission : Admission}
    (h : Admitted host reg now keeper id admission) (hconfig : reg'.config = reg.config)
    (hhalted : reg'.haltedTargets = reg.haltedTargets)
    (hactive : reg'.keepers.active = reg.keepers.active)
    (hbonds : ∀ who, reg'.keepers.bondOf who = reg.keepers.bondOf who)
    (hparts : reg'.jobs.getJobParts id = reg.jobs.getJobParts id)
    (hleader : ∀ leader ∈ admission.spec.after,
      reg'.jobs.states.get leader = reg.jobs.states.get leader) :
    Admitted host reg' now keeper id admission := by
  refine ⟨hparts.trans h.parts, h.due, hconfig ▸ h.permitted, ?_, h.listed, ?_,
    hconfig ▸ h.window, ?_⟩
  · rw [Registry.isTargetHalted, hhalted]
    exact h.running
  · rw [hconfig, assignedKeeperFor_congr hactive hbonds]
    exact h.assigned
  · rw [← h.dependency]
    unfold dependencyMet
    cases hafter : admission.spec.after with
    | none => rfl
    | some leader =>
        dsimp only
        rw [hleader leader hafter]

/-- A call after the turns of some listed jobs. -/
structure Midway (host : Host World) (executor keeper : Address) (info : Keeper) (c : Chain World)
    (earlier : List JobId) (b : Batch World) : Prop where
  runs : ∃ ran, runJobs host executor keeper earlier (startBatch c keeper info) = .ok (ran, b)
  solvent : UnderwaySolvent host c info b
  states : ∀ other, other ∉ earlier →
    b.chain.reg.jobs.states.get other = c.reg.jobs.states.get other

/-- A job that had no turn yet finds the same gates open as at the start. -/
theorem Midway.admitted (h : Midway host executor keeper info c earlier b)
    (hapart : NoFollowers c.reg.jobs jobIds)
    (hearlier : ∀ other ∈ earlier, other ∈ jobIds ∧ other ≠ id) (hid : id ∈ jobIds)
    {admission : Admission} : Admitted host b.chain.reg b.chain.now keeper id admission ↔
      Admitted host c.reg c.now keeper id admission := by
  have hunder := h.solvent.toUnderway
  have hhalted : b.chain.reg.haltedTargets = c.reg.haltedTargets := by rw [hunder.reg]
  have hown : id ∉ earlier := fun hmem => (hearlier id hmem).2 rfl
  have hparts : b.chain.reg.jobs.getJobParts id = c.reg.jobs.getJobParts id :=
    JobTable.getJobParts_congr (by rw [hunder.specs]) (h.states id hown)
  have hleader : ∀ spec, c.reg.jobs.specs.get id = some spec → ∀ leader ∈ spec.after,
      b.chain.reg.jobs.states.get leader = c.reg.jobs.states.get leader := by
    intro spec hspec leader hleader
    refine h.states leader fun hmem => ?_
    obtain ⟨hlisted, hne⟩ := hearlier leader hmem
    exact hne (hapart id hid spec hspec leader hleader hlisted)
  rw [hunder.now]
  constructor
  · intro hadmitted
    have hspec := JobTable.specs_get_of_parts (hparts.symm.trans hadmitted.parts)
    exact hadmitted.congr hunder.config.symm hhalted.symm hunder.active.symm
      (fun who => (hunder.bonds who).symm)
      hparts.symm fun leader hmem => (hleader _ hspec leader hmem).symm
  · intro hadmitted
    have hspec := JobTable.specs_get_of_parts hadmitted.parts
    exact hadmitted.congr hunder.config hhalted hunder.active hunder.bonds hparts (hleader _ hspec)

theorem UnderwaySolvent.asked (h : UnderwaySolvent host c info b) (id : JobId) (spec : JobSpec) :
    UnderwaySolvent host c info (b.asked host id spec) := by
  refine ⟨h.toUnderwaySound.asked id spec, ?_, resolver_fits host id spec h.fits⟩
  intro token
  have hcovered := h.covered token
  have hmoved := (resolver_moved host b.chain.toSurroundings id spec token).1
  have hsurplus : surplus host (b.asked host id spec).chain token = surplus host b.chain token +
      (resolverAllows host b.chain.toSurroundings id spec).moved token host.registry :=
        add_sub_right_comm _ _ _
  change unpaid c.reg.config b.payout token ≤ _
  omega

/-- What the turn of a job comes to, told from the chain at the start of the call. -/
inductive Verdict (host : Host World) (executor keeper : Address) (info : Keeper) (c : Chain World)
    (id : JobId) : Effect → Prop where
  | rejected (hclosed : ∀ admission, ¬ Admitted host c.reg c.now keeper id admission) :
      Verdict host executor keeper info c id { moved := 0, run := none }
  | refused {admission : Admission} (hadmitted : Admitted host c.reg c.now keeper id admission)
      (hrefused : (resolverAllows host c.toSurroundings id admission.spec).answer = false) :
      Verdict host executor keeper info c id
        { moved := only (payees host c.reg.config keeper)
            (resolverAllows host c.toSurroundings id admission.spec).moved
          run := none }
  | ran {after : Batch World} {r : Receipt World}
      (hran : Ran host executor keeper id (startBatch c keeper info) after r) :
      Verdict host executor keeper info c id
        { moved := only (payees host c.reg.config keeper)
            ((resolverAllows host c.toSurroundings id r.admission.spec).moved + r.call.moved)
          run := some (r.entry c.reg id c.now) }

theorem Verdict.own {effect : Effect} (h : Verdict host executor keeper info c id effect) :
    ∀ entry ∈ effect.run, entry.id = id := by
  intro entry hentry
  cases h with
  | rejected | refused => cases hentry
  | ran =>
      cases hentry
      rfl

theorem verdict_exists (executor : Address) (info : Keeper) (hsolvent : Solvent host c)
    (hfits : ¬ Overflowing host keeper id c) :
    ∃ effect, Verdict host executor keeper info c id effect := by
  by_cases hopen : ∃ admission, Admitted host c.reg c.now keeper id admission
  · obtain ⟨admission, hadmitted⟩ := hopen
    cases hallowed : (resolverAllows host c.toSurroundings id admission.spec).answer with
    | false => exact ⟨_, .refused hadmitted hallowed⟩
    | true =>
        have hunder := UnderwaySolvent.start hsolvent keeper info
        obtain ⟨after, r, -, hran⟩ :=
          runJob_succeeds executor hsolvent.sound hunder hadmitted hallowed
          fun hsteps => hfits ⟨admission, hadmitted, hallowed, hsteps⟩
        exact ⟨_, .ran hran⟩
  · exact ⟨_, .rejected fun admission hadmitted => hopen ⟨admission, hadmitted⟩⟩

/-- A run that is admitted alike and whose target answers alike decides the same. -/
theorem Underway.entry_eq (h : Underway c info b) {after : Batch World} {r r' : Receipt World}
    (hran : Ran host executor keeper id (startBatch c keeper info) after r)
    (hran' : Ran host executor keeper id b b' r') (hadmission : r'.admission = r.admission)
    (hanswer : r'.call.answer = r.call.answer) :
    r'.entry b.chain.reg id b.chain.now = r.entry c.reg id c.now := by
  obtain ⟨-, hfee, hsplit, hbalance, hnext⟩ := hran.priced
  obtain ⟨-, hfee', hsplit', hbalance', hnext'⟩ := hran'.priced
  change rampedFee _ _ b.chain.now = _ at hfee'
  change splitFee _ b.chain.reg.config.protocolFeeBps = _ at hsplit'
  change nextRunAfter _ _ b.chain.now = _ at hnext'
  change rampedFee _ _ c.now = _ at hfee
  change splitFee _ c.reg.config.protocolFeeBps = _ at hsplit
  change nextRunAfter _ _ c.now = _ at hnext
  rw [h.now, hadmission, hfee, Option.some.injEq] at hfee'
  rw [h.config, ← hfee', hsplit, Option.some.injEq, Prod.mk.injEq] at hsplit'
  rw [hadmission, ← hfee', hbalance, Option.some.injEq] at hbalance'
  rw [h.now, hadmission, hnext, Option.some.injEq] at hnext'
  have hstate : r'.state b.chain.reg.config = r.state c.reg.config := by
    simp only [Receipt.state, h.config, hadmission, hanswer, hbalance', hnext']
  have hcharged : r'.charged b.chain.reg id b.chain.now = r.charged c.reg id c.now := by
    rw [Receipt.charged, Receipt.charged, hadmission, h.now, h.reg]
    rfl
  rw [Receipt.entry, Receipt.entry, hstate, hcharged, h.now, hadmission, hsplit'.1, hsplit'.2]

/-- A job that had no turn yet has the turn it would have had at the start. -/
theorem Midway.turn (h : Midway host executor keeper info c earlier b) (hsound : c.Sound host)
    (hblind : OrderBlind host executor keeper info c jobIds)
    (hapart : NoFollowers c.reg.jobs jobIds)
    (hdistinct : earlier.Nodup) (hearlier : ∀ other ∈ earlier, other ∈ jobIds ∧ other ≠ id)
    (hid : id ∈ jobIds)
    {effect : Effect} (hverdict : Verdict host executor keeper info c id effect) :
    ∃ outcome b', runJob host executor keeper id b = .ok (outcome, b') ∧
      outcome.isOk = effect.run.isSome ∧ UnderwaySolvent host c info b' ∧
      b'.tally (payees host c.reg.config keeper) =
        (b.tally (payees host c.reg.config keeper)).add effect := by
  obtain ⟨ran, hruns⟩ := h.runs
  have hgates : ∀ admission, Admitted host b.chain.reg b.chain.now keeper id admission ↔
      Admitted host c.reg c.now keeper id admission := fun _ => h.admitted hapart hearlier hid
  have hcalls := fun admission (hadmitted : Admitted host c.reg c.now keeper id admission) =>
    hblind id hid admission.spec
      (JobTable.specs_get_of_parts hadmitted.parts) earlier ran b hdistinct hearlier hruns
  cases hverdict with
  | rejected hclosed =>
      cases hopen : runGates host b.chain.reg b.chain.now keeper id with
      | ok admission =>
          exact absurd ((hgates admission).mp (runGates_eq_ok.mp hopen)) (hclosed admission)
      | error reason =>
          refine ⟨.error reason, b, by simp only [runJob, hopen], rfl, h.solvent, ?_⟩
          simp only [Tally.add, Option.elim_none, add_zero]
  | @refused admission hadmitted hrefused =>
      obtain ⟨hresolver, -⟩ := hcalls admission hadmitted
      have hopen := runGates_eq_ok.mpr ((hgates admission).mpr hadmitted)
      have hno : ¬ (resolverAllows host b.chain.toSurroundings id admission.spec).answer =
          true := by
        rw [hresolver.answer, hrefused]
        exact Bool.false_ne_true
      refine ⟨.error .resolverRejected, b.asked host id admission.spec, ?_, rfl,
        h.solvent.asked id admission.spec, ?_⟩
      · simp only [runJob, hopen, if_neg hno, Batch.asked]
      · rw [asked_tally, hresolver.moved]
  | @ran after r hran =>
      have hadmitted := hran.admitted
      obtain ⟨hresolver, htarget⟩ := hcalls r.admission hadmitted
      have hallowed :
          (resolverAllows host b.chain.toSurroundings id r.admission.spec).answer = true :=
        hresolver.answer.trans hran.allowed
      have hsteps : ¬ StepOverflows r.admission.spec r.admission.state b.chain.now :=
        h.solvent.toUnderway.now ▸ hran.steps_fit hsound.clock
      obtain ⟨b', r', hadmission, hran'⟩ :=
        runJob_succeeds executor hsound h.solvent ((hgates _).mpr hadmitted) hallowed hsteps
      have hcall : r'.call = targetCall host executor id r.admission.spec b := by
        rw [hran'.priced.call, hadmission]
        rfl
      have hcall' : r.call = targetCall host executor id r.admission.spec
          (startBatch c keeper info) :=
        hran.priced.call
      have hanswer : r'.call.answer = r.call.answer := by
        rw [hcall, hcall', htarget.answer]
      refine ⟨.ok (), b', runJob_eq_ran.mpr ⟨r', hran'⟩, rfl, h.solvent.ran hsound.config hran', ?_⟩
      rw [hran'.tally, h.solvent.toUnderway.entry_eq hran hran' hadmission hanswer, only_add,
        only_add, hadmission, hresolver.moved, hcall, hcall', htarget.moved]

/-! ## All turns -/

theorem runJobs_states {ran : List Bool} (h : runJobs host executor keeper jobIds b = .ok (ran, b'))
    {other : JobId} (hother : other ∉ jobIds) :
    b'.chain.reg.jobs.states.get other = b.chain.reg.jobs.states.get other := by
  let I : List (Execution World) → Batch World → Prop := fun past now =>
    (∃ execution ∈ past, execution.jobId = other) ∨
      now.chain.reg.jobs.states.get other = b.chain.reg.jobs.states.get other
  have hlast : I ([] ++ runsOf host executor keeper jobIds b) b' := by
    refine runJobs_history ?_ ?_ [] (.inr rfl) h
    · rintro past now id spec hpast
      exact hpast
    · rintro past now after id r (⟨execution, hmem, hid⟩ | hkept) hran
      · exact .inl ⟨execution, List.mem_append_left _ hmem, hid⟩
      · by_cases heq : id = other
        · exact .inl ⟨_, List.mem_append_right _ List.mem_cons_self, heq⟩
        · refine .inr ?_
          rw [← hkept, hran.reg]
          exact Store.get_set_of_ne _ _ (Ne.symm heq)
  rcases hlast with ⟨execution, hmem, hid⟩ | hkept
  · exact absurd (hid ▸ runsOf_jobId hmem) hother
  · exact hkept

theorem midway_of_runs {ran : List Bool} (hsolvent : Solvent host c)
    (h : runJobs host executor keeper earlier (startBatch c keeper info) = .ok (ran, b)) :
    Midway host executor keeper info c earlier b := by
  refine ⟨⟨ran, h⟩, ?_, fun other hother => runJobs_states h hother⟩
  refine runJobs_invariant ?_ ?_ (UnderwaySolvent.start hsolvent keeper info) h
  · exact fun _ id spec hunder => hunder.asked id spec
  · exact fun _ _ _ _ hunder hran => hunder.ran hsolvent.sound.config hran

/-- Where no listed job overflows, the listed jobs have the turns they would have had at the start,
one by one. -/
theorem runJobs_turns (hsolvent : Solvent host c)
    (hblind : OrderBlind host executor keeper info c jobIds)
    (hapart : NoFollowers c.reg.jobs jobIds) {effect : JobId → Effect}
    (heffect : ∀ id ∈ jobIds, Verdict host executor keeper info c id (effect id))
    (hdistinct : earlier.Nodup) (hlisted : ∀ id ∈ earlier, id ∈ jobIds) :
    ∃ b, runJobs host executor keeper earlier (startBatch c keeper info) =
        .ok (earlier.map fun id => (effect id).run.isSome, b) ∧
      b.tally (payees host c.reg.config keeper) =
        earlier.foldl (fun t id => t.add (effect id))
          ((startBatch c keeper info).tally (payees host c.reg.config keeper)) := by
  induction earlier using List.reverseRecOn with
  | nil => exact ⟨_, rfl, rfl⟩
  | append_singleton before id ih =>
      have hapartIds := List.nodup_append.mp hdistinct
      obtain ⟨b, hruns, htally⟩ :=
        ih hapartIds.1 fun other hmem => hlisted other (List.mem_append_left _ hmem)
      have hid : id ∈ jobIds := hlisted id (List.mem_append_right _ List.mem_cons_self)
      have hbefore : ∀ other ∈ before, other ∈ jobIds ∧ other ≠ id := fun other hmem =>
        ⟨hlisted other (List.mem_append_left _ hmem),
          hapartIds.2.2 other hmem id List.mem_cons_self⟩
      obtain ⟨outcome, b', hjob, hflag, -, htally'⟩ :=
        (midway_of_runs hsolvent hruns).turn hsolvent.sound hblind hapart
        hapartIds.1 hbefore hid (heffect id hid)
      refine ⟨b', ?_, ?_⟩
      · rw [runJobs_append, hruns, List.map_append, List.map_singleton, ← hflag]
        change (runJobs host executor keeper [id] b >>= _) = _
        rw [runJobs, hjob]
        rfl
      · rw [htally', htally, List.foldl_append, List.foldl_cons, List.foldl_nil]

/-- A listed job that overflows at the start does so after any other turns. -/
theorem runJobs_overflowing (hsolvent : Solvent host c) (hapart : NoFollowers c.reg.jobs jobIds)
    (hblind : OrderBlind host executor keeper info c jobIds) (hdistinct : earlier.Nodup)
    (hlisted : ∀ other ∈ earlier, other ∈ jobIds) (hid : id ∈ earlier)
    (hoverflows : Overflowing host keeper id c) :
    runJobs host executor keeper earlier (startBatch c keeper info) = .error (.trap .overflow) := by
  cases hruns : runJobs host executor keeper earlier (startBatch c keeper info) with
  | error why => rw [runJobs_eq_error hruns]
  | ok result =>
      obtain ⟨before, after, rfl⟩ := List.append_of_mem hid
      have hapartIds := List.nodup_append.mp hdistinct
      rw [runJobs_append] at hruns
      obtain ⟨⟨ran, b⟩, hbefore, hrest⟩ := bind_eq_ok.mp hruns
      obtain ⟨⟨ran', last⟩, hturns, -⟩ := bind_eq_ok.mp hrest
      obtain ⟨⟨outcome, b'⟩, hjob, -⟩ := bind_eq_ok.mp hturns
      have hearlier : ∀ other ∈ before, other ∈ jobIds ∧ other ≠ id := fun other hmem =>
        ⟨hlisted other (List.mem_append_left _ hmem),
          hapartIds.2.2 other hmem id List.mem_cons_self⟩
      have hid' : id ∈ jobIds := hlisted id hid
      have hmidway := midway_of_runs hsolvent hbefore
      obtain ⟨admission, hadmitted, hallowed, hsteps⟩ := hoverflows
      obtain ⟨hresolver, -⟩ := hblind id hid' admission.spec
        (JobTable.specs_get_of_parts hadmitted.parts) before ran b
        hapartIds.1 hearlier hbefore
      have hnow := hmidway.solvent.toUnderway.now
      exact absurd hjob (runJob_overflowing ((hmidway.admitted hapart hearlier hid').mpr hadmitted)
        (hresolver.answer.trans hallowed) (hnow ▸ hsteps) (hnow ▸ hsolvent.sound.clock) _)

/-- In any order the listed turns overflow, or come to the same. -/
theorem runJobs_reordered {jobIds' : List JobId} (hsolvent : Solvent host c)
    (hapart : NoFollowers c.reg.jobs jobIds)
    (hblind : OrderBlind host executor keeper info c jobIds) (hdistinct : jobIds.Nodup)
    (hperm : jobIds'.Perm jobIds) :
    (runJobs host executor keeper jobIds (startBatch c keeper info) = .error (.trap .overflow) ∧
      runJobs host executor keeper jobIds' (startBatch c keeper info) = .error (.trap .overflow)) ∨
    ∃ flag b₁ b₂, runJobs host executor keeper jobIds (startBatch c keeper info) =
      .ok (jobIds.map flag, b₁) ∧
      runJobs host executor keeper jobIds' (startBatch c keeper info) = .ok (jobIds'.map flag, b₂) ∧
      b₂.tally (payees host c.reg.config keeper) = b₁.tally (payees host c.reg.config keeper) := by
  have hdistinct' : jobIds'.Nodup := hperm.nodup_iff.mpr hdistinct
  have hlisted : ∀ id ∈ jobIds, id ∈ jobIds := fun _ hmem => hmem
  have hlisted' : ∀ id ∈ jobIds', id ∈ jobIds := fun _ hmem => hperm.mem_iff.mp hmem
  by_cases hover : ∃ id ∈ jobIds, Overflowing host keeper id c
  · obtain ⟨id, hid, hover⟩ := hover
    exact .inl ⟨runJobs_overflowing hsolvent hapart hblind hdistinct hlisted hid hover,
      runJobs_overflowing hsolvent hapart hblind hdistinct' hlisted' (hperm.mem_iff.mpr hid) hover⟩
  · have hverdicts : ∀ id, ∃ effect, id ∈ jobIds →
        Verdict host executor keeper info c id effect := by
      intro id
      by_cases hid : id ∈ jobIds
      · obtain ⟨effect, hverdict⟩ :=
          verdict_exists executor info hsolvent fun hfails => hover ⟨id, hid, hfails⟩
        exact ⟨effect, fun _ => hverdict⟩
      · exact ⟨{ moved := 0, run := none }, fun hmem => absurd hmem hid⟩
    choose effect heffect using hverdicts
    obtain ⟨b₁, hruns₁, htally₁⟩ := runJobs_turns hsolvent hblind hapart heffect hdistinct hlisted
    obtain ⟨b₂, hruns₂, htally₂⟩ := runJobs_turns hsolvent hblind hapart heffect hdistinct' hlisted'
    refine .inr ⟨_, b₁, b₂, hruns₁, hruns₂, ?_⟩
    rw [htally₁, htally₂]
    exact Tally.foldl_perm hperm (fun id hid => (heffect id (hlisted' id hid)).own) _

/-! ## The whole call -/

theorem Batch.settledAs_keepers (b : Batch World) (who : Address) :
    (b.settledAs host keeper).reg.keepers.infos.get who =
        (if who = keeper then some b.record.info else b.chain.reg.keepers.infos.get who) ∧
      (b.settledAs host keeper).reg.keepers.getKeeperRecent who =
        if who = keeper then b.record.recent else b.chain.reg.keepers.getKeeperRecent who := by
  simp only [Batch.settledAs, KeeperRecord.save, KeeperTable.getKeeperRecent,
    KeeperTable.setKeeperRecent_infos,
    KeeperTable.setKeeper_infos, KeeperTable.setKeeperRecent_recents, KeeperTable.setKeeper_recents,
      Store.get_set,
    true_and]
  split
  · rfl
  · rfl

/-- Calls with the same tally leave the same books. -/
theorem sameBooks_of_tally {b₁ b₂ : Batch World} (hconfig₁ : b₁.chain.reg.config = c.reg.config)
    (hconfig₂ : b₂.chain.reg.config = c.reg.config)
    (htally : b₂.tally (payees host c.reg.config keeper) =
      b₁.tally (payees host c.reg.config keeper)) :
    SameBooks (payees host c.reg.config keeper) keeper (b₁.settledAs host keeper)
      (b₂.settledAs host keeper) := by
  have hkeepers := congrFun (congrArg Tally.keepers htally)
  have hown : b₂.record.info = b₁.record.info := congrArg Tally.own htally
  have hmisses : b₂.record.recent.misses = b₁.record.recent.misses :=
    congrArg Tally.ownMisses htally
  constructor
  case states => exact congrFun (congrArg Tally.states htally)
  case infos =>
    intro who
    rw [(b₁.settledAs_keepers who).1, (b₂.settledAs_keepers who).1, hown]
    split
    · rfl
    · exact congrArg Prod.fst (hkeepers who)
  case misses =>
    intro who
    rw [(b₁.settledAs_keepers who).2, (b₂.settledAs_keepers who).2]
    split
    · exact hmisses
    · exact congrArg (fun entry => entry.2.misses) (hkeepers who)
  case lateness =>
    intro who hne
    rw [(b₁.settledAs_keepers who).2, (b₂.settledAs_keepers who).2, if_neg hne, if_neg hne]
    exact congrArg (fun entry => entry.2.lateness) (hkeepers who)
  case balances =>
    intro token holder hholder
    have hpayout : b₂.payout = b₁.payout := by
      have hkeeperFees : b₂.payout.keeperFees = b₁.payout.keeperFees :=
        congrArg Tally.keeperFees htally
      have hprotocolFees : b₂.payout.protocolFees = b₁.payout.protocolFees :=
        congrArg Tally.protocolFees htally
      cases hfirst : b₁.payout
      cases hsecond : b₂.payout
      rw [hfirst, hsecond] at hkeeperFees hprotocolFees
      congr
    have hheld := congrFun (congrFun (congrArg Tally.balances htally) token) holder
    change only _ b₂.chain.balances token holder = only _ b₁.chain.balances token holder at hheld
    rw [only_of_mem _ _ hholder, only_of_mem _ _ hholder] at hheld
    simp only [Batch.settledAs, Pi.add_apply, hheld, hpayout, hconfig₁, hconfig₂]

theorem executeBatch_unauthorized {why : Failure}
    (hsize : ¬ (jobIds = [] ∨ maxBatch < jobIds.length))
    (hauth : authorizeKeeper host ctx c.reg keeper = .error why) :
    executeBatch host ctx c keeper jobIds = .error why := by
  rw [executeBatch, rejectIf, if_neg hsize, hauth]
  rfl

theorem executeBatch_fails {why : Failure} (hsize : ¬ (jobIds = [] ∨ maxBatch < jobIds.length))
    (hauth : authorizeKeeper host ctx c.reg keeper = .ok (executor, info))
    (hfails : runJobs host executor keeper jobIds (startBatch c keeper info) = .error why) :
    executeBatch host ctx c keeper jobIds = .error why := by
  rw [executeBatch, rejectIf, if_neg hsize, hauth]
  change (runJobs host executor keeper jobIds (startBatch c keeper info) >>= _) = _
  rw [hfails]
  rfl

theorem zip_map_self {α β : Type} (items : List α) (f : α → β) :
    items.zip (items.map f) = items.map fun item => (item, f item) := by
  induction items with
  | nil => rfl
  | cons item rest ih => rw [List.map_cons, List.zip_cons_cons, ih, List.map_cons]

/-- Independent jobs commute: in any order a batch fails alike, or gives each job the same flag
and leaves the same job states, the same keeper records and misses, and the same balances of the
registry, the keeper and the treasury. -/
theorem batch_order_irrelevant (ctx : Ctx) (keeper : Address) (hpays : PaysOut host)
    (hreach : Reachable host c) (hdistinct : jobIds.Nodup) (hapart : NoFollowers c.reg.jobs jobIds)
    (hblind : ∀ executor info, authorizeKeeper host ctx c.reg keeper = .ok (executor, info) →
      OrderBlind host executor keeper info c jobIds)
    {jobIds' : List JobId} (hperm : jobIds'.Perm jobIds) :
    (∃ why, executeBatch host ctx c keeper jobIds = .error why ∧
      executeBatch host ctx c keeper jobIds' = .error why) ∨
    ∃ ran c₁ ran' c₂, executeBatch host ctx c keeper jobIds = .ok (ran, c₁) ∧
      executeBatch host ctx c keeper jobIds' = .ok (ran', c₂) ∧
      (jobIds'.zip ran').Perm (jobIds.zip ran) ∧
      SameBooks (payees host c.reg.config keeper) keeper c₁ c₂ := by
  have hsolvent := hreach.solvent
  have hsize : (jobIds' = [] ∨ maxBatch < jobIds'.length) ↔
      (jobIds = [] ∨ maxBatch < jobIds.length) := by
    rw [← List.length_eq_zero_iff, ← List.length_eq_zero_iff, hperm.length_eq]
  by_cases hbad : jobIds = [] ∨ maxBatch < jobIds.length
  · have hbad' := hsize.mpr hbad
    refine .inl ⟨.rejected .invalidBatchSize, ?_, ?_⟩
    · rw [executeBatch, rejectIf, if_pos hbad]
      rfl
    · rw [executeBatch, rejectIf, if_pos hbad']
      rfl
  have hbad' : ¬ (jobIds' = [] ∨ maxBatch < jobIds'.length) := fun h => hbad (hsize.mp h)
  cases hauth : authorizeKeeper host ctx c.reg keeper with
  | error why => exact .inl ⟨why, executeBatch_unauthorized hbad hauth,
      executeBatch_unauthorized hbad' hauth⟩
  | ok pair =>
      obtain ⟨executor, info⟩ := pair
      rcases runJobs_reordered hsolvent hapart (hblind executor info hauth) hdistinct hperm with
        ⟨hfails, hfails'⟩ | ⟨flag, b₁, b₂, hruns₁, hruns₂, htally⟩
      · exact .inl ⟨_, executeBatch_fails hbad hauth hfails, executeBatch_fails hbad' hauth hfails'⟩
      · have hunder₁ := (midway_of_runs hsolvent hruns₁).solvent
        have hunder₂ := (midway_of_runs hsolvent hruns₂).solvent
        have hfinish₁ : finish host keeper b₁ = .ok (b₁.settledAs host keeper) :=
          finish_succeeds keeper hpays hsolvent.sound hunder₁
        have hfinish₂ : finish host keeper b₂ = .ok (b₂.settledAs host keeper) :=
          finish_succeeds keeper hpays hsolvent.sound hunder₂
        rw [not_or, Nat.not_lt] at hbad hbad'
        refine .inr ⟨_, _, _, _, executeBatch_eq_ok.mpr
          ⟨hbad, executor, info, b₁, hauth, hruns₁, hfinish₁⟩,
          executeBatch_eq_ok.mpr ⟨hbad', executor, info, b₂, hauth, hruns₂, hfinish₂⟩, ?_,
          sameBooks_of_tally hunder₁.toUnderway.config hunder₂.toUnderway.config htally⟩
        rw [zip_map_self, zip_map_self]
        exact hperm.map _

theorem plainHost_orderBlind (executor keeper : Address) (info : Keeper) (c : Chain Unit)
    (jobIds : List JobId) : OrderBlind plainHost executor keeper info c jobIds := by
  intro id _ spec _ earlier ran b _ _ _
  refine ⟨?_, ⟨rfl, rfl⟩⟩
  unfold resolverAllows
  split
  · exact ⟨rfl, rfl⟩
  · exact ⟨rfl, rfl⟩

/-- The job every second and the job every minute, listed either way. -/
theorem batch_order_irrelevant_twoJobs :
    ∃ ran c₁ ran' c₂, executeBatch plainHost ⟨[⟨4⟩]⟩ (twoJobsChain 60) ⟨4⟩ [0, 1] = .ok (ran, c₁) ∧
      executeBatch plainHost ⟨[⟨4⟩]⟩ (twoJobsChain 60) ⟨4⟩ [1, 0] = .ok (ran', c₂) ∧
      SameBooks (payees plainHost (twoJobsChain 60).reg.config ⟨4⟩) ⟨4⟩ c₁ c₂ := by
  have hreach : Reachable plainHost (twoJobsChain 60) := twoJobsChain_reachable (by decide)
  have hleaders : ∀ id ∈ [0, 1],
      ((twoJobsChain 60).reg.jobs.specs.get id).bind JobSpec.after = none := by decide
  have hapart : NoFollowers (twoJobsChain 60).reg.jobs [0, 1] := by
    intro id hid spec hspec leader hleader
    have hnone := hleaders id hid
    rw [hspec, Option.bind_some] at hnone
    rw [hnone] at hleader
    cases hleader
  have hruns : (executeBatch plainHost ⟨[⟨4⟩]⟩ (twoJobsChain 60) ⟨4⟩ [0, 1]).isOk = true := by
    decide
  rcases batch_order_irrelevant ⟨[⟨4⟩]⟩ ⟨4⟩ plainHost_paysOut hreach (by decide) hapart
    (fun executor info _ => plainHost_orderBlind executor ⟨4⟩ info _ _) (List.Perm.swap 0 1 []) with
    ⟨why, hfails, -⟩ | ⟨ran, c₁, ran', c₂, h₁, h₂, -, hbooks⟩
  · rw [hfails] at hruns
    cases hruns
  · exact ⟨ran, c₁, ran', c₂, h₁, h₂, hbooks⟩

end SoroCron
