import Mathlib.Algebra.Order.BigOperators.Group.List
import SoroCron.Guarantees.Fees
import SoroCron.Guarantees.Reordering
import SoroCron.Registry.Earnings

/-! # A batch that applies late

A keeper simulates a batch on one chain and the batch applies on a later one. As long as no other
call reaches the registry in between, the wait cannot spoil it: the gates of a run only open with
time, until its job expires, and the fee of a late run only grows.
-/

namespace SoroCron

open Outcome Bounded

variable {World : Type} {host : Host World} {ctx : Ctx} {executor keeper : Address} {info : Keeper}
  {c c' later : Chain World} {jobIds earlier rest : List JobId} {id : JobId} {b b' : Batch World}

/-! ## Waiting -/

/-- Time passes, other contracts go on, entries expire: everything but a call to the registry. -/
def Idle (host : Host World) (c : Chain World) (action : Action World) : Prop :=
  Admissible host c action ∧ ∀ ctx call, action ≠ .call ctx call

/-- What a wait leaves of the registry. -/
structure Waited (c later : Chain World) : Prop where
  now : c.now ≤ later.now
  reg : later.reg = { c.reg with
    jobTouched := later.reg.jobTouched, targetResumed := later.reg.targetResumed }

theorem Waited.refl (c : Chain World) : Waited c c := ⟨le_rfl, rfl⟩

theorem Waited.trans {middle : Chain World} (h : Waited c middle) (h' : Waited middle later) :
    Waited c later := by
  refine ⟨h.now.trans h'.now, ?_⟩
  rw [h'.reg, h.reg]

theorem waited_step {action : Action World} (h : Idle host c action) :
    Waited c (step host c action) := by
  obtain ⟨-, hnocall⟩ := h
  cases action with
  | call ctx call => exact absurd rfl (hnocall ctx call)
  | advance now => exact ⟨Nat.le_max_left _ _, rfl⟩
  | outside world moved => exact ⟨le_rfl, rfl⟩
  | expireTouched jobId => exact ⟨le_rfl, rfl⟩
  | expireResumed target => exact ⟨le_rfl, rfl⟩

theorem waited_run {actions : List (Action World)}
    (halong : (machine host).Along (Idle host) c actions) :
    Waited c ((machine host).run c actions) :=
  Machine.invariant_run (I := Waited c)
    (fun _ _ hwaited hwaits => hwaited.trans (waited_step hwaits)) (Waited.refl c) halong

theorem Reachable.waits (hreach : Reachable host c) {actions : List (Action World)}
    (halong : (machine host).Along (Idle host) c actions) :
    Reachable host ((machine host).run c actions) :=
  hreach.run (Machine.along_mono (fun _ _ hwaits => hwaits.1) halong)

namespace Waited

variable (h : Waited c later)
include h

theorem config : later.reg.config = c.reg.config := by rw [h.reg]

theorem jobs : later.reg.jobs = c.reg.jobs := by rw [h.reg]

theorem keepers : later.reg.keepers = c.reg.keepers := by rw [h.reg]

theorem authorizes : authorizeKeeper host ctx later.reg keeper =
    authorizeKeeper host ctx c.reg keeper := by
  rw [authorizeKeeper, authorizeKeeper, h.config, h.keepers]

end Waited

/-! ## Jobs that only time decides about -/

/-- The job asks no resolver and follows none of the listed jobs, and has not expired at `now`. -/
structure Lasting (jobs : JobTable) (jobIds : List JobId) (now : Timestamp) (spec : JobSpec) :
    Prop where
  unasked : spec.resolver = none
  alone : ∀ leader ∈ spec.after, leader ∉ jobIds
  unexpired : spec.endAt = 0 ∨ now < spec.endAt

/-- A job that had no turn yet, and whose leader had none, finds the gates of the start open. -/
theorem Midway.gates (h : Midway host executor keeper info c earlier b) (hid : id ∉ earlier)
    {admission : Admission} (hleader : ∀ leader ∈ admission.spec.after, leader ∉ earlier) :
    Admitted host b.chain.reg b.chain.now keeper id admission ↔
      Admitted host c.reg c.now keeper id admission := by
  have hunder := h.solvent.toUnderway
  have hhalted : b.chain.reg.haltedTargets = c.reg.haltedTargets := by rw [hunder.reg]
  have hparts : b.chain.reg.jobs.getJobParts id = c.reg.jobs.getJobParts id :=
    JobTable.getJobParts_congr (by rw [hunder.specs]) (h.states id hid)
  have hstates : ∀ leader ∈ admission.spec.after,
      b.chain.reg.jobs.states.get leader = c.reg.jobs.states.get leader :=
    fun leader hmem => h.states leader (hleader leader hmem)
  rw [hunder.now]
  constructor
  · intro hadmitted
    exact hadmitted.congr hunder.config.symm hhalted.symm hunder.active.symm
      (fun who => (hunder.bonds who).symm)
      hparts.symm fun leader hmem => (hstates leader hmem).symm
  · intro hadmitted
    exact hadmitted.congr hunder.config hhalted hunder.active hunder.bonds hparts hstates

/-- Gates that were open stay open while the job lasts. -/
theorem Waited.gates (h : Waited c later) {admission : Admission}
    (hadmitted : Admitted host c.reg c.now keeper id admission)
    (hunexpired : admission.spec.endAt = 0 ∨ later.now < admission.spec.endAt) :
    Admitted host later.reg later.now keeper id admission := by
  have hnow := h.now
  obtain ⟨hactive, hleft, -, hfunded, hdue⟩ := ensureDue_eq_ok.mp hadmitted.due
  have hlater : Admitted host c.reg later.now keeper id admission :=
    { hadmitted with
      due := ensureDue_eq_ok.mpr ⟨hactive, hleft, hunexpired, hfunded, hdue.trans hnow⟩
      window := fun hassigned => (hadmitted.window hassigned).trans hnow }
  have hhalted : later.reg.haltedTargets = c.reg.haltedTargets := by rw [h.reg]
  refine hlater.congr h.config hhalted ?_ ?_ ?_ ?_
  · rw [h.keepers]
  · intro who
    rw [h.keepers]
  · rw [h.jobs]
  · intro leader _
    rw [h.jobs]

/-! ## The turns -/

theorem Midway.next (h : Midway host executor keeper info c earlier b) (hsolvent : Solvent host c)
    {outcome : Except Error Unit} (hjob : runJob host executor keeper id b = .ok (outcome, b')) :
    Midway host executor keeper info c (earlier ++ [id]) b' := by
  obtain ⟨ran, hruns⟩ := h.runs
  have hmore : runJobs host executor keeper (earlier ++ [id]) (startBatch c keeper info) =
      .ok (ran ++ [outcome.isOk], b') := by
    rw [runJobs_append, hruns]
    change (runJobs host executor keeper [id] b >>= _) = _
    rw [runJobs, hjob]
    rfl
  exact midway_of_runs hsolvent hmore

/-- A turn fails only at the last representable moment. -/
theorem Midway.turn_ok (h : Midway host executor keeper info c earlier b) (hsound : c.Sound host)
    (hearly : c.now < u64Max) (id : JobId) :
    ∃ outcome b', runJob host executor keeper id b = .ok (outcome, b') := by
  by_cases hopen : ∃ admission, Admitted host b.chain.reg b.chain.now keeper id admission ∧
      (resolverAllows host b.chain.toSurroundings id admission.spec).answer = true
  · obtain ⟨admission, hadmitted, hallowed⟩ := hopen
    have hsteps : ¬ StepOverflows admission.spec admission.state b.chain.now := by
      intro hsteps
      have hlast := hsteps.2.2
      rw [h.solvent.toUnderway.now] at hlast
      exact hearly.ne hlast
    obtain ⟨b', r, -, hran⟩ := runJob_succeeds executor hsound h.solvent hadmitted hallowed hsteps
    exact ⟨.ok (), b', runJob_eq_ran.mpr ⟨r, hran⟩⟩
  · cases hjob : runJob host executor keeper id b with
    | ok result => exact ⟨result.1, result.2, rfl⟩
    | error why =>
        unfold runJob at hjob
        split at hjob
        · cases hjob
        next admission hgates =>
          dsimp only at hjob
          split at hjob
          next hallowed => exact absurd ⟨admission, runGates_eq_ok.mp hgates, hallowed⟩ hopen
          next => cases hjob

theorem Midway.turns_ok (h : Midway host executor keeper info c earlier b)
    (hsolvent : Solvent host c) (hearly : c.now < u64Max) (rest : List JobId) :
    ∃ ran b', runJobs host executor keeper rest b = .ok (ran, b') := by
  induction rest generalizing b earlier with
  | nil => exact ⟨[], b, rfl⟩
  | cons id rest ih =>
      obtain ⟨outcome, middle, hjob⟩ := h.turn_ok hsolvent.sound hearly id
      obtain ⟨ran, last, hrest⟩ := ih (h.next hsolvent hjob)
      refine ⟨outcome.isOk :: ran, last, ?_⟩
      simp only [runJobs, bind_eq_ok, Prod.exists]
      exact ⟨_, _, hjob, _, _, hrest, rfl⟩

/-- A lasting job that ran in its turn before the wait runs in its turn after it. -/
theorem Waited.turn (h : Waited c later) {blater : Batch World}
    (hbefore : Midway host executor keeper info c earlier b)
    (hafter : Midway host executor keeper info later earlier blater) (hsolvent : Solvent host later)
    (hearly : later.now < u64Max) (hnew : id ∉ earlier)
    (hlisted : ∀ other ∈ earlier, other ∈ jobIds)
    {r : Receipt World} (hran : Ran host executor keeper id b b' r)
    (hlasting : Lasting c.reg.jobs jobIds later.now r.admission.spec) :
    ∃ blater', runJob host executor keeper id blater = .ok (.ok (), blater') := by
  have hleader : ∀ leader ∈ r.admission.spec.after, leader ∉ earlier :=
    fun leader hmem hran => hlasting.alone leader hmem (hlisted leader hran)
  have hstart := (hbefore.gates hnew hleader).mp hran.admitted
  have hadmitted := (hafter.gates hnew hleader).mpr (h.gates hstart hlasting.unexpired)
  have hallowed : (resolverAllows host blater.chain.toSurroundings id r.admission.spec).answer =
      true := by
    rw [resolverAllows, hlasting.unasked]
  have hsteps : ¬ StepOverflows r.admission.spec r.admission.state blater.chain.now := by
    intro hsteps
    have hlast := hsteps.2.2
    rw [hafter.solvent.toUnderway.now] at hlast
    exact hearly.ne hlast
  obtain ⟨blater', r', -, hran'⟩ :=
    runJob_succeeds executor hsolvent.sound hafter.solvent hadmitted hallowed hsteps
  exact ⟨blater', runJob_eq_ran.mpr ⟨r', hran'⟩⟩

theorem runJobs_later {blater blast blast' : Batch World} {ran ran' : List Bool}
    (h : Waited c later)
    (hsolvent : Solvent host c) (hsolvent' : Solvent host later) (hearly : later.now < u64Max)
    (hbefore : Midway host executor keeper info c earlier b)
    (hafter : Midway host executor keeper info later earlier blater)
    (hdistinct : (earlier ++ rest).Nodup) (hlisted : ∀ other ∈ earlier ++ rest, other ∈ jobIds)
    (hruns : runJobs host executor keeper rest b = .ok (ran, blast))
    (hruns' : runJobs host executor keeper rest blater = .ok (ran', blast')) :
    ∀ id ∈ ranOf rest ran, (∀ spec, c.reg.jobs.specs.get id = some spec →
      Lasting c.reg.jobs jobIds later.now spec) →
      id ∈ ranOf rest ran' := by
  induction rest generalizing earlier b blater ran ran' with
  | nil =>
      intro id hid
      cases hid
  | cons next rest ih =>
      simp only [runJobs, bind_eq_ok, Prod.exists, pure_eq_ok, Prod.mk.injEq] at hruns hruns'
      obtain ⟨outcome, middle, hjob, others, last, hrest, rfl, rfl⟩ := hruns
      obtain ⟨outcome', middle', hjob', others', last', hrest', rfl, rfl⟩ := hruns'
      rw [List.append_cons] at hdistinct hlisted
      have htail := ih (hbefore.next hsolvent hjob)
        (hafter.next hsolvent' hjob') hdistinct hlisted hrest hrest'
      have hkept : ∀ id ∈ ranOf rest others', id ∈
          ranOf (next :: rest) (outcome'.isOk :: others') := by
        intro id hid
        rw [ranOf_cons]
        split
        · exact List.mem_cons_of_mem _ hid
        · exact hid
      intro id hid hlasting
      rw [ranOf_cons] at hid
      cases outcome with
      | error reason => exact hkept id (htail id hid hlasting)
      | ok u =>
          rcases List.mem_cons.mp hid with rfl | hid
          · obtain ⟨r, hran⟩ := runJob_eq_ran.mp hjob
            have hnew : id ∉ earlier := by
              have hapart := (List.nodup_append.mp (List.nodup_append.mp hdistinct).1).2.2
              exact fun hmem => hapart id hmem id List.mem_cons_self rfl
            have hspec : c.reg.jobs.specs.get id = some r.admission.spec := by
              rw [← hbefore.solvent.toUnderway.specs]
              exact JobTable.specs_get_of_parts hran.admitted.parts
            obtain ⟨blater', hagain⟩ := h.turn hbefore hafter hsolvent' hearly hnew
              (fun other hmem =>
                hlisted other (List.mem_append_left _ (List.mem_append_left _ hmem))) hran
              (hlasting _ hspec)
            cases hjob'.symm.trans hagain
            exact List.mem_cons_self
          · exact hkept id (htail id hid hlasting)

/-! ## What the keeper is paid -/

/-- A larger fee leaves its keeper no less. -/
theorem splitFee_mono {amount amount' rest rest' share share' : ℤ} {bps : ℕ} (hbps : bps ≤ 10000)
    (hle : amount ≤ amount') (h : splitFee amount bps = some (rest, share))
    (h' : splitFee amount' bps = some (rest', share')) : rest ≤ rest' := by
  by_cases hpos : 0 < amount
  · obtain ⟨hshare, hrest⟩ := splitFee_eq_some hpos h
    obtain ⟨hshare', hrest'⟩ := splitFee_eq_some (hpos.trans_le hle) h'
    have hgrowth : amount' * bps ≤ amount * bps + (amount' - amount) * 10000 := by
      have hmul : (amount' - amount) * bps ≤ (amount' - amount) * 10000 :=
        mul_le_mul_of_nonneg_left (by exact_mod_cast hbps) (sub_nonneg.mpr hle)
      rw [sub_mul] at hmul
      omega
    have hdiv := Int.ediv_le_ediv (show (0 : ℤ) < 10000 by decide) hgrowth
    rw [Int.add_mul_ediv_right _ _ (by decide)] at hdiv
    omega
  · have hnothing : rest = amount := by
      rw [splitFee, if_pos (.inl (not_lt.mp hpos)), Option.some.injEq, Prod.mk.injEq] at h
      exact h.1.symm
    by_cases hpos' : 0 < amount'
    · obtain ⟨hkeeper, -, -⟩ := splitFee_parts hpos' hbps h'
      omega
    · rw [splitFee, if_pos (.inl (not_lt.mp hpos')), Option.some.injEq, Prod.mk.injEq] at h'
      omega

theorem quote_parts {q : Quote} (h : quote c id = some q) :
    ∃ spec state, c.reg.jobs.getJobParts id = some (spec, state) ∧ rampedFee spec state c.now =
      some q.fee ∧
      splitFee q.fee c.reg.config.protocolFeeBps = some (q.keeperFee, q.protocolFee) := by
  simp only [quote, Option.bind_eq_bind, Option.bind_eq_some_iff, Prod.exists, Option.pure_def,
    Option.some.injEq] at h
  obtain ⟨spec, state, hparts, fee, hfee, keeperFee, protocolFee, hsplit, rfl⟩ := h
  exact ⟨spec, state, hparts, hfee, hsplit⟩

/-- The quote of a job only rises while it waits. -/
theorem Waited.quote_le (h : Waited c later) (hsound : c.Sound host) {q q' : Quote}
    (hquote : quote c id = some q)
    (hquote' : quote later id = some q') : q.fee ≤ q'.fee ∧ q.keeperFee ≤ q'.keeperFee := by
  obtain ⟨spec, state, hparts, hfee, hsplit⟩ := quote_parts hquote
  obtain ⟨spec', state', hparts', hfee', hsplit'⟩ := quote_parts hquote'
  rw [h.jobs, hparts] at hparts'
  cases hparts'
  rw [h.config] at hsplit'
  have hspec := hsound.jobs.specs id spec (JobTable.specs_get_of_parts hparts)
  rw [rampedFee_eq hspec, Option.some.injEq] at hfee hfee'
  have hle : q.fee ≤ q'.fee := by
    rw [← hfee, ← hfee']
    exact min_le_min_right _ (uncapped_mono spec state.nextRun h.now)
  exact ⟨hle, splitFee_mono (hsound.config.protocolFee.trans (by decide)) hle hsplit hsplit'⟩

theorem quote_nonneg (hsound : c.Sound host) {q : Quote} (hquote : quote c id = some q) :
    0 ≤ q.fee ∧ 0 ≤ q.keeperFee := by
  obtain ⟨spec, state, hparts, hfee, hsplit⟩ := quote_parts hquote
  have hspec := hsound.jobs.specs id spec (JobTable.specs_get_of_parts hparts)
  have hstate := hsound.jobs.states id state (JobTable.states_get_of_parts hparts)
  obtain ⟨full, hmin, hbase, -⟩ := rampedFee_eq_min hfee
  have hpos := hspec.fee_pos
  have hbalance := hstate.balance_nonneg
  have hnonneg : 0 ≤ q.fee := by omega
  have hzero : splitFee 0 c.reg.config.protocolFeeBps = some (0, 0) := by
    rw [splitFee, if_pos (.inl le_rfl)]
  exact ⟨hnonneg, splitFee_mono (hsound.config.protocolFee.trans (by decide)) hnonneg hzero hsplit⟩

/-- Quotes that rise one by one, for jobs among others, add up to more. -/
theorem Waited.quoted_le (h : Waited c later) (hsound : c.Sound host) (hsound' : later.Sound host)
    {ids ids' : List JobId} (hdistinct : ids.Nodup) (hsub : ∀ id ∈ ids, id ∈ ids')
    (hquotes : ∀ id ∈ ids', (quote later id).isSome = true) :
    quoted Quote.fee c ids ≤ quoted Quote.fee later ids' ∧
      quoted Quote.keeperFee c ids ≤ quoted Quote.keeperFee later ids' := by
  obtain ⟨among, hperm, hamong⟩ := List.subperm_of_subset hdistinct hsub
  have hgrown : ∀ part : Quote → ℤ,
      (∀ id q q', quote c id = some q → quote later id = some q' → part q ≤ part q') →
      (∀ id q, quote later id = some q → 0 ≤ part q) →
      quoted part c ids ≤ quoted part later ids' := by
    intro part hle hnonneg
    have hone : ∀ id ∈ ids, (quote c id).elim 0 part ≤ (quote later id).elim 0 part := by
      intro id hid
      obtain ⟨q', hquote'⟩ := Option.isSome_iff_exists.mp (hquotes id (hsub id hid))
      rw [hquote', Option.elim_some]
      cases hquote : quote c id with
      | none => exact hnonneg id q' hquote'
      | some q => exact hle id q q' hquote hquote'
    calc quoted part c ids ≤ quoted part later ids := List.sum_le_sum hone
      _ = quoted part later among := (hperm.map _).sum_eq.symm
      _ ≤ quoted part later ids' := by
        apply (hamong.map _).sum_le_sum
        intro amount hmem
        obtain ⟨id, -, rfl⟩ := List.mem_map.mp hmem
        cases hquote : quote later id with
        | none => exact le_rfl
        | some q => exact hnonneg id q hquote
  constructor
  · exact hgrown Quote.fee (fun id q q' hq hq' => (h.quote_le hsound hq hq').1) fun id q hq =>
      (quote_nonneg hsound' hq).1
  · exact hgrown Quote.keeperFee (fun id q q' hq hq' => (h.quote_le hsound hq hq').2)
      fun id q hq => (quote_nonneg hsound' hq).2

/-- The job would still run at `now`, as far as its own settings and the rest of the batch go. -/
def Lasts (c : Chain World) (jobIds : List JobId) (now : Timestamp) (id : JobId) : Prop :=
  ∀ spec, c.reg.jobs.specs.get id = some spec → Lasting c.reg.jobs jobIds now spec

/-- What a batch runs on one chain and after a wait. -/
theorem Waited.batch (h : Waited c later) (hreach : Reachable host c)
    (hreach' : Reachable host later)
    (hearly : later.now < u64Max) (hdistinct : jobIds.Nodup) {last : Chain World}
    {ran ran' : List Bool} (hbefore : executeBatch host ctx c keeper jobIds = .ok (ran, c'))
    (hafter : executeBatch host ctx later keeper jobIds = .ok (ran', last)) :
    ∀ id ∈ ranOf jobIds ran, Lasts c jobIds later.now id → id ∈ ranOf jobIds ran' := by
  have hsolvent := hreach.solvent
  have hsolvent' := hreach'.solvent
  obtain ⟨-, executor, info, b, hauth, hruns, -⟩ := executeBatch_eq_ok.mp hbefore
  obtain ⟨-, executor', info', b', hauth', hruns', -⟩ := executeBatch_eq_ok.mp hafter
  cases (h.authorizes.trans hauth).symm.trans hauth'
  have hstart : Midway host executor keeper info c [] (startBatch c keeper info) :=
    midway_of_runs hsolvent rfl
  have hstart' : Midway host executor keeper info later [] (startBatch later keeper info) :=
    midway_of_runs hsolvent' rfl
  exact runJobs_later h hsolvent hsolvent' hearly hstart hstart' hdistinct
    (fun other hmem => hmem) hruns hruns'

/-- A batch that a keeper simulated still goes through after any wait, runs every lasting job that
ran in the simulation, charges it no less, and pays the keeper no less if all of these last. -/
theorem wait_never_spoils (ctx : Ctx) (hpays : PaysOut host) (hreach : Reachable host c)
    (hdistinct : jobIds.Nodup)
    {actions : List (Action World)} (halong : (machine host).Along (Idle host) c actions)
    (hearly : ((machine host).run c actions).now < u64Max) {ran : List Bool}
    (hsimulated : executeBatch host ctx c keeper jobIds = .ok (ran, c')) :
    let later := (machine host).run c actions
    let lasts := Lasts c jobIds later.now
    ∃ ran' last, executeBatch host ctx later keeper jobIds = .ok (ran', last) ∧
      (∀ id ∈ ranOf jobIds ran, lasts id → id ∈ ranOf jobIds ran' ∧
        ∃ q q', quote c id = some q ∧ quote later id = some q' ∧ q.fee ≤ q'.fee ∧
          q.keeperFee ≤ q'.keeperFee) ∧
      ((∀ id ∈ ranOf jobIds ran, lasts id) →
        quoted Quote.fee c (ranOf jobIds ran) ≤ quoted Quote.fee later (ranOf jobIds ran') ∧
        total .keeper keeper (paymentsOf host ctx c (.executeBatch keeper jobIds)) ≤
          total .keeper keeper (paymentsOf host ctx later (.executeBatch keeper jobIds))) := by
  intro later lasts
  have hwaited : Waited c later := waited_run halong
  have hreach' : Reachable host later := hreach.waits halong
  have hsolvent' := hreach'.solvent
  obtain ⟨hsize, executor, info, b, hauth, hruns, -⟩ := executeBatch_eq_ok.mp hsimulated
  have hauth' : authorizeKeeper host ctx later.reg keeper = .ok (executor, info) :=
    hwaited.authorizes.trans hauth
  have hstart : Midway host executor keeper info later [] (startBatch later keeper info) :=
    midway_of_runs hsolvent' rfl
  obtain ⟨ran', b', hruns'⟩ := hstart.turns_ok hsolvent' hearly jobIds
  have hfinish := finish_succeeds keeper hpays hsolvent'.sound
    (midway_of_runs hsolvent' hruns').solvent
  have hbatch := executeBatch_eq_ok.mpr ⟨hsize, executor, info, b', hauth', hruns', hfinish⟩
  obtain ⟨hpaid, -, hquotes⟩ := executeBatch_pays hreach.sound hdistinct hsimulated
  obtain ⟨hpaid', -, hquotes'⟩ := executeBatch_pays hreach'.sound hdistinct hbatch
  have hkept := hwaited.batch hreach hreach' hearly hdistinct hsimulated hbatch
  refine ⟨ran', _, hbatch, ?_, ?_⟩
  · intro id hid hlasting
    have hagain := hkept id hid hlasting
    obtain ⟨q, hquote⟩ := Option.isSome_iff_exists.mp (hquotes id hid)
    obtain ⟨q', hquote'⟩ := Option.isSome_iff_exists.mp (hquotes' id hagain)
    exact ⟨hagain, q, q', hquote, hquote', hwaited.quote_le hreach.sound hquote hquote'⟩
  · intro hlasting
    rw [hpaid, hpaid']
    exact hwaited.quoted_le hreach.sound hreach'.sound (hdistinct.sublist (ranOf_sublist _ _))
      (fun id hid => hkept id hid (hlasting id hid)) hquotes'

/-- A job due at `1000` whose fee rises from `10` to `40` within a minute. -/
def risingRun : List (Action Unit) :=
  [.call ⟨[⟨3⟩]⟩ (.admin (.setExecutor ⟨6⟩)),
    .call ⟨[⟨3⟩]⟩ (.admin (.setProtocolFee 1000 (some ⟨8⟩))),
    .call ⟨[⟨4⟩]⟩ (.keeper (.stake ⟨4⟩ 100)),
    .call ⟨[⟨5⟩]⟩ (.job (.createJob ⟨5⟩ { minutely with maxFeePerRun := 40 } 50)),
    .advance 1020]

def risingChain : Chain Unit := (machine plainHost).run (deployment ⟨3⟩ 1000 100 10 1000) risingRun

theorem risingChain_reachable : Reachable plainHost risingChain := by
  refine ⟨_, risingRun, deployment_deployed ⟨3⟩ 10 1000 (by decide) (by decide), ?_, rfl⟩
  simp [risingRun, Machine.Along, Admissible, Call.WellTyped, JobParams.WellTyped, minutely, u64Max,
    i128Max]

/-- Simulated when the job is twenty seconds late, the batch pays half as much again after forty. -/
theorem wait_never_spoils_rising :
    let later := (machine plainHost).run risingChain [.outside () 0, .advance 1040]
    (∃ ran' last, executeBatch plainHost ⟨[⟨4⟩]⟩ later ⟨4⟩ [0] = .ok (ran', last) ∧
      0 ∈ ranOf [0] ran') ∧
      (total .keeper ⟨4⟩ (paymentsOf plainHost ⟨[⟨4⟩]⟩ risingChain (.executeBatch ⟨4⟩ [0])),
        total .keeper ⟨4⟩ (paymentsOf plainHost ⟨[⟨4⟩]⟩ later (.executeBatch ⟨4⟩ [0]))) =
          (18, 27) := by
  intro later
  have halong : (machine plainHost).Along (Idle plainHost) risingChain
      [.outside () 0, .advance 1040] := by
    refine ⟨⟨?_, nofun⟩, ⟨?_, nofun⟩, trivial⟩
    · intro token
      simp
    · change 1040 ≤ u64Max
      decide
  obtain ⟨c', hsimulated⟩ :
      ∃ c', executeBatch plainHost ⟨[⟨4⟩]⟩ risingChain ⟨4⟩ [0] = .ok ([true], c') := ⟨_, rfl⟩
  obtain ⟨ran', last, hbatch, hkept, -⟩ :=
    wait_never_spoils ⟨[⟨4⟩]⟩ plainHost_paysOut risingChain_reachable
    (by decide) halong (by decide) hsimulated
  refine ⟨⟨ran', last, hbatch, (hkept 0 List.mem_cons_self ?_).1⟩, by decide⟩
  intro spec hspec
  have hget : risingChain.reg.jobs.specs.get 0 = some spec := hspec
  cases hget
  refine ⟨rfl, ?_, .inl rfl⟩
  intro leader hleader
  cases hleader

end SoroCron
