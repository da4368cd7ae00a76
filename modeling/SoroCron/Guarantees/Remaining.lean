import SoroCron.Guarantees.Fees
import SoroCron.Registry.Lives

/-! # Runs remaining

How many more runs clients expect of a job bounds how often the registry runs it until someone
tops it up, and counts them down exactly while it is charged its base fee.
-/

namespace SoroCron

open Outcome Bounded

variable {World : Type} {host : Host World} {c : Chain World} {spec spec' : JobSpec}
  {state state' : JobState} {id : JobId}

/-! ## One job -/

/-- Neither its limit of runs nor its balance rejects a run of the job. -/
def Affords (spec : JobSpec) (state : JobState) : Prop :=
  rejectIf (spec.maxRuns ≠ 0 ∧ spec.maxRuns ≤ state.runs) Error.maxRunsReached = .ok () ∧
    rejectIf (state.balance < spec.feePerRun) Error.insufficientJobBalance = .ok ()

/-- What clients expect of a job that is charged a positive fee. -/
def remaining (spec : JobSpec) (state : JobState) : ℤ :=
  if spec.maxRuns = 0 then
    state.balance / spec.feePerRun
  else
    min (state.balance / spec.feePerRun) (max ((spec.maxRuns : ℤ) - state.runs) 0)

theorem runsRemaining_eq (id : JobId) (hfee : 0 < spec.feePerRun) (hbalance : 0 ≤ state.balance) :
    Sdk.runsRemaining (jobView id spec state) = remaining spec state := by
  have hfunded : (if 0 < spec.feePerRun then state.balance.tdiv spec.feePerRun else 0) =
      state.balance / spec.feePerRun := by
    rw [if_pos hfee, Int.tdiv_eq_ediv_of_nonneg hbalance]
  have hmin : ∀ funded left : ℤ, (if funded < left then funded else left) = min funded left := by
    intro funded left
    omega
  unfold remaining
  rw [← hfunded, ← hmin]
  rfl

/-- A deposit for some runs is the least balance that pays for them. -/
theorem le_runsRemaining_iff (id : JobId) {runs : ℕ} (hfee : 0 < spec.feePerRun)
    (hbalance : 0 ≤ state.balance) (hroom : spec.maxRuns = 0 ∨ state.runs + runs ≤ spec.maxRuns) :
    (runs : ℤ) ≤ Sdk.runsRemaining (jobView id spec state) ↔
      Sdk.depositFor runs spec.feePerRun ≤ state.balance := by
  have hfunded : (runs : ℤ) ≤ state.balance / spec.feePerRun ↔
      Sdk.depositFor runs spec.feePerRun ≤ state.balance :=
    Int.le_ediv_iff_mul_le hfee
  rw [runsRemaining_eq id hfee hbalance, ← hfunded, remaining]
  split
  next => rfl
  next hlimited =>
    have hleft : (runs : ℤ) ≤ max ((spec.maxRuns : ℤ) - state.runs) 0 := by omega
    rw [le_min_iff, and_iff_left hleft]

theorem affords_iff (hfee : 0 < spec.feePerRun) :
    Affords spec state ↔ 0 < remaining spec state := by
  have hfunded : 0 < state.balance / spec.feePerRun ↔ spec.feePerRun ≤ state.balance := by
    rw [← Int.add_one_le_iff, zero_add, Int.le_ediv_iff_mul_le hfee, one_mul]
  unfold Affords remaining
  rw [rejectIf_eq_ok, rejectIf_eq_ok]
  split
  · rw [hfunded]
    omega
  · rw [lt_min_iff, hfunded]
    omega

theorem remaining_nonneg (hfee : 0 < spec.feePerRun) (hbalance : 0 ≤ state.balance) :
    0 ≤ remaining spec state := by
  have hfunded := Int.ediv_nonneg hbalance hfee.le
  unfold remaining
  split
  · exact hfunded
  · exact le_min hfunded (le_max_right _ _)

/-- With less money, as many runs remain at most. -/
theorem remaining_mono {balance : ℤ} (hfee : 0 < spec.feePerRun) (hle : balance ≤ state.balance) :
    remaining spec { state with balance } ≤ remaining spec state := by
  have hfunded : balance / spec.feePerRun ≤ state.balance / spec.feePerRun :=
    Int.ediv_le_ediv hfee hle
  unfold remaining
  dsimp only
  split
  · exact hfunded
  · exact min_le_min_right _ hfunded

/-- A run takes at least one of the runs that remain, and exactly one at the base fee. -/
theorem remaining_ran (hfee : 0 < spec.feePerRun) (hword : spec.maxRuns ≤ u32Max)
    (hruns : spec.maxRuns = 0 ∨ state.runs < spec.maxRuns) {fee : ℤ} (hbase : spec.feePerRun ≤ fee)
    (hbalance : state'.balance = state.balance - fee)
    (hcount : state'.runs = satAdd32 state.runs 1) :
    remaining spec state' + 1 ≤ remaining spec state ∧
      (fee = spec.feePerRun → remaining spec state' + 1 = remaining spec state) := by
  have hone : (state.balance - spec.feePerRun) / spec.feePerRun =
      state.balance / spec.feePerRun - 1 := by
    rw [Int.sub_ediv_of_dvd _ (dvd_refl _), Int.ediv_self hfee.ne']
  have hfunded : state'.balance / spec.feePerRun ≤ state.balance / spec.feePerRun - 1 := by
    rw [hbalance, ← hone]
    exact Int.ediv_le_ediv hfee (by omega)
  have hexact : fee = spec.feePerRun →
      state'.balance / spec.feePerRun = state.balance / spec.feePerRun - 1 := by
    rintro rfl
    rw [hbalance, hone]
  unfold remaining
  split
  next => omega
  next hlimited =>
    have hnext : state'.runs = state.runs + 1 := by
      rw [hcount]
      exact satAdd_eq (by omega)
    have hleft : max ((spec.maxRuns : ℤ) - state'.runs) 0 =
        max ((spec.maxRuns : ℤ) - state.runs) 0 - 1 := by
      omega
    rw [hleft]
    omega

/-- Without a ceiling, or on time, a run is charged the base fee. -/
theorem rampedFee_base (hspec : spec.Sound) {now : Timestamp}
    (hdue : ensureDue spec state now = .ok ())
    (hflat : spec.maxFeePerRun = 0 ∨ now = state.nextRun) :
    rampedFee spec state now = some spec.feePerRun := by
  have hpos := hspec.fee_pos
  have hinterval := hspec.interval_pos
  obtain ⟨-, -, -, hfunded, -⟩ := ensureDue_eq_ok.mp hdue
  have huncapped : uncapped spec state.nextRun now = spec.feePerRun := by
    unfold uncapped
    rcases hflat with hnone | rfl
    · rw [if_pos (by omega)]
    · rw [Nat.sub_self, if_neg (show ¬ spec.interval ≤ 0 by omega)]
      split
      · rfl
      · have hzero : i128 ((spec.maxFeePerRun - spec.feePerRun) * ((0 : ℕ) : ℤ)) = some 0 := by
          rw [Nat.cast_zero, mul_zero]
          rfl
        rw [lateShare, hzero]
        simp
  rw [rampedFee_eq hspec, huncapped, min_eq_left hfunded]

/-! ## In a run -/

/-- Neither tops a job up nor changes its settings. -/
def JobAct.Frugal : JobAct World → Prop
  | .funded _ | .updated _ => False
  | _ => True

/-- Takes nothing from a job but `fee` for a run. -/
def JobAct.Exact (fee : ℤ) : JobAct World → Prop
  | .withdrawn _ => False
  | .ran execution => execution.fee = fee
  | _ => True

instance (act : JobAct World) : Decidable act.Frugal :=
  match act with
  | .funded _ | .updated _ => .isFalse False.elim
  | .created .. | .withdrawn _ | .activeSet _ | .handedOver | .cancelled | .ran _ => .isTrue trivial

instance (fee : ℤ) (act : JobAct World) : Decidable (act.Exact fee) :=
  match act with
  | .withdrawn _ => .isFalse False.elim
  | .ran execution => inferInstanceAs (Decidable (execution.fee = fee))
  | .created .. | .updated _ | .funded _ | .activeSet _ | .handedOver | .cancelled =>
      .isTrue trivial

/-- A live job that had `start` runs remaining under `spec`, after everything in `past`. -/
structure Spends (spec : JobSpec) (start : ℤ) (past : List (JobAct World)) (spec' : JobSpec)
    (state' : JobState) : Prop where
  fee : spec'.feePerRun = spec.feePerRun
  limit : spec'.maxRuns = spec.maxRuns
  balance : 0 ≤ state'.balance
  bound : runCount past + remaining spec' state' ≤ start
  counted : (∀ act ∈ past, act.Exact spec.feePerRun) →
    runCount past + remaining spec' state' = start

def JobPhase.Spends (spec : JobSpec) (start : ℤ) (past : List (JobAct World)) : JobPhase → Prop
  | .future => False
  | .live spec' state' => SoroCron.Spends spec start past spec' state'
  | .gone => runCount past ≤ start

variable {start : ℤ} {past : List (JobAct World)}

/-- What is neither a run nor a change of the amounts keeps the count. -/
theorem Spends.same {act : JobAct World} {spec'' : JobSpec} {state'' : JobState}
    (h : Spends spec start past spec' state') (hruns : runCount [act] = 0)
    (hfee : spec''.feePerRun = spec'.feePerRun) (hlimit : spec''.maxRuns = spec'.maxRuns)
    (hbalance : state''.balance = state'.balance) (hcount : state''.runs = state'.runs) :
    Spends spec start (past ++ [act]) spec'' state'' := by
  have hsame : remaining spec'' state'' = remaining spec' state' := by
    unfold remaining
    rw [hfee, hlimit, hbalance, hcount]
  refine ⟨hfee.trans h.fee, hlimit.trans h.limit, hbalance ▸ h.balance, ?_, ?_⟩
  · rw [runCount_append, hruns, hsame]
    exact h.bound
  · intro hexact
    rw [runCount_append, hruns, hsame]
    exact h.counted fun act hmem => hexact act (List.mem_append_left _ hmem)

theorem JobChange.spends {now : Timestamp} {act : JobAct World} {before after : JobPhase}
    (hfee : 0 < spec.feePerRun) (hword : spec.maxRuns ≤ u32Max)
    (hbefore : before.Spends spec start past)
    (hfrugal : act.Frugal) (h : JobChange host now act before after) :
    after.Spends spec start (past ++ [act]) := by
  cases h with
  | created => exact hbefore.elim
  | updated => exact hfrugal.elim
  | funded => exact hfrugal.elim
  | @withdrawn amount spec' state' hpos hle =>
      have hpositive : 0 < spec'.feePerRun := hbefore.fee ▸ hfee
      have hless : remaining spec' { state' with balance := state'.balance - amount } ≤
          remaining spec' state' :=
        remaining_mono hpositive (by omega)
      have hbound := hbefore.bound
      refine ⟨hbefore.fee, hbefore.limit, by dsimp only; omega, ?_, ?_⟩
      · have hcount : runCount (past ++ [JobAct.withdrawn amount]) = runCount past :=
          runCount_append _ _
        rw [hcount]
        omega
      · intro hexact
        exact (hexact (.withdrawn amount) (by simp)).elim
  | activeSet => exact Spends.same hbefore rfl rfl rfl rfl rfl
  | handedOver => exact Spends.same hbefore rfl rfl rfl rfl rfl
  | @cancelled spec' state' =>
      have hpositive : 0 < spec'.feePerRun := hbefore.fee ▸ hfee
      have hrest := remaining_nonneg hpositive hbefore.balance
      have hbound := hbefore.bound
      have hcount : runCount (past ++ [(JobAct.cancelled : JobAct World)]) = runCount past :=
        runCount_append _ _
      change ((runCount _ : ℕ) : ℤ) ≤ start
      rw [hcount]
      omega
  | @ran execution r hnow hlive hconfig hjobs hran =>
      obtain ⟨-, hruns, -, -, -⟩ := ensureDue_eq_ok.mp hran.admitted.due
      obtain ⟨hbase, hcovered⟩ := hran.fee_bounds
      have hpositive : 0 < r.admission.spec.feePerRun := hbefore.fee ▸ hfee
      have hlimit : r.admission.spec.maxRuns ≤ u32Max := hbefore.limit ▸ hword
      have hbalance : (r.state execution.before.chain.reg.config).balance =
          r.admission.state.balance - r.fee :=
        hran.balance_eq
      obtain ⟨hspent, hone⟩ := remaining_ran hpositive hlimit hruns hbase hbalance rfl
      have hcount : runCount (past ++ [.ran execution]) = runCount past + 1 := runCount_append _ _
      have hbound := hbefore.bound
      refine ⟨hbefore.fee, hbefore.limit, ?_, ?_, ?_⟩
      · omega
      · rw [hcount]
        push_cast
        omega
      · intro hexact
        have hcharged : execution.fee = spec.feePerRun := hexact (.ran execution) (by simp)
        rw [hran.fee hjobs hconfig] at hcharged
        have hstep := hone (hcharged.trans hbefore.fee.symm)
        have hpast := hbefore.counted fun act hmem => hexact act (List.mem_append_left _ hmem)
        rw [hcount]
        push_cast
        omega

/-- Clients' runs remaining are positive exactly while a job affords a run, bound its runs until
it is topped up, and count them down one by one while it is charged its base fee. -/
theorem runsRemaining_predicts (hreach : Reachable host c)
    (hparts : c.reg.jobs.getJobParts id = some (spec, state)) (hword : spec.maxRuns ≤ u32Max) :
    (0 < Sdk.runsRemaining (jobView id spec state) ↔ Affords spec state) ∧
      (∀ now, ensureDue spec state now = .ok () → spec.maxFeePerRun = 0 ∨ now = state.nextRun →
        rampedFee spec state now = some spec.feePerRun) ∧
      ∀ later, (machine host).Along (Admissible host) c later →
        (∀ act ∈ jobActs id ((machine host).outputs c later), act.Frugal) →
        (runCount (jobActs id ((machine host).outputs c later)) : ℤ) ≤
            Sdk.runsRemaining (jobView id spec state) ∧
          ((∀ act ∈ jobActs id ((machine host).outputs c later), act.Exact spec.feePerRun) →
            ∀ spec' state',
              ((machine host).run c later).reg.jobs.getJobParts id = some (spec', state') →
              runCount (jobActs id ((machine host).outputs c later)) +
                  Sdk.runsRemaining (jobView id spec' state') =
                    Sdk.runsRemaining (jobView id spec state) ∧
                (Affords spec' state' ↔
                  (runCount (jobActs id ((machine host).outputs c later)) : ℤ) <
                  Sdk.runsRemaining (jobView id spec state))) := by
  have hsound := hreach.sound
  have hspec := hsound.jobs.specs id spec (JobTable.specs_get_of_parts hparts)
  have hbalance :=
    (hsound.jobs.states id state (JobTable.states_get_of_parts hparts)).balance_nonneg
  have hfee := hspec.fee_pos
  rw [runsRemaining_eq id hfee hbalance]
  refine ⟨(affords_iff hfee).symm, fun now hdue hflat => rampedFee_base hspec hdue hflat, ?_⟩
  intro later halong hfrugal
  obtain ⟨now, -, hlife⟩ := job_life hsound id halong
  have hstart : (c.reg.jobs.phase id).Spends spec (remaining spec state)
      ([] : List (JobAct World)) := by
    rw [phase_of_parts hparts]
    exact ⟨rfl, rfl, hbalance, by simp [runCount, runsIn], fun _ => by simp [runCount, runsIn]⟩
  -- What is left and what was run add up to what there was, act by act.
  have hlast := (hlife.restrict hfrugal).history
    (J := fun past phase => phase.2.Spends spec (remaining spec state) past) ?_ [] hstart
  · rw [List.nil_append] at hlast
    dsimp only at hlast
    refine ⟨?_, ?_⟩
    · cases hphase : ((machine host).run c later).reg.jobs.phase id with
      | future =>
          rw [hphase] at hlast
          exact hlast.elim
      | live spec' state' =>
          rw [hphase] at hlast
          have hpositive : 0 < spec'.feePerRun := hlast.fee ▸ hfee
          have hrest := remaining_nonneg hpositive hlast.balance
          have hbound := hlast.bound
          omega
      | gone =>
          rw [hphase] at hlast
          exact hlast
    · intro hexact spec' state' hparts'
      rw [phase_of_parts hparts'] at hlast
      have hpositive : 0 < spec'.feePerRun := hlast.fee ▸ hfee
      have hcounted := hlast.counted hexact
      rw [runsRemaining_eq id hpositive hlast.balance, affords_iff hpositive]
      refine ⟨hcounted, ?_⟩
      omega
  · rintro past act before after hpast ⟨hkeeps, -, hchange⟩
    exact hchange.spends hfee hword hpast hkeeps

def laterRun : List (Action Unit) := [.advance 1120, .call ⟨[⟨4⟩]⟩ (.run (.execute ⟨4⟩ 0))]

/-- After the first run the job affords four more, and after the second three. -/
theorem runsRemaining_predicts_firstRun :
    let c := (machine plainHost).run (deployment ⟨3⟩ 1000 100 10 1000) firstRun
    ∃ spec state spec' state', c.reg.jobs.getJobParts 0 = some (spec, state) ∧
      ((machine plainHost).run c laterRun).reg.jobs.getJobParts 0 = some (spec', state') ∧
      (0 < Sdk.runsRemaining (jobView 0 spec state) ↔ Affords spec state) ∧
      1 + Sdk.runsRemaining (jobView 0 spec' state') =
        Sdk.runsRemaining (jobView 0 spec state) := by
  intro c
  have hreach : Reachable plainHost c :=
    ⟨_, _, deployment_deployed ⟨3⟩ 10 1000 (by decide) (by decide), firstRun_admissible _, rfl⟩
  have hjob : (c.reg.jobs.getJobParts 0).map (fun parts => (parts.1.maxRuns, parts.1.feePerRun)) =
      some (0, 10) := by
    decide
  obtain ⟨⟨spec, state⟩, hparts, hfields⟩ := Option.map_eq_some_iff.mp hjob
  obtain ⟨hlimit, hfee⟩ := Prod.mk.inj hfields
  obtain ⟨⟨spec', state'⟩, hparts'⟩ :
      ∃ parts, ((machine plainHost).run c laterRun).reg.jobs.getJobParts 0 = some parts :=
    Option.isSome_iff_exists.mp (by decide)
  have hadmissible : (machine plainHost).Along (Admissible plainHost) c laterRun :=
    ⟨(by decide : 1120 ≤ u64Max), trivial, trivial⟩
  have hword : spec.maxRuns ≤ u32Max := hlimit.trans_le (Nat.zero_le _)
  obtain ⟨hpositive, -, hlater⟩ := runsRemaining_predicts hreach hparts hword
  have hfrugal : ∀ act ∈ jobActs 0 ((machine plainHost).outputs c laterRun), act.Frugal := by decide
  have hexact : ∀ act ∈ jobActs 0 ((machine plainHost).outputs c laterRun), act.Exact 10 := by
    decide
  have hcount : runCount (jobActs 0 ((machine plainHost).outputs c laterRun)) = 1 := by decide
  dsimp only at hlimit hfee
  obtain ⟨-, hcounted⟩ := hlater laterRun hadmissible hfrugal
  obtain ⟨hone, -⟩ := hcounted (hfee ▸ hexact) spec' state' hparts'
  rw [hcount] at hone
  exact ⟨spec, state, spec', state', hparts, hparts', hpositive, hone⟩

end SoroCron
