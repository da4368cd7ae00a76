import SoroCron.Registry.Notices

/-! # Fees paid

The transfers at the end of every call that ran jobs, and what the receipts of its runs say that
they are.
-/

namespace SoroCron

open Outcome Bounded

variable {World : Type} {host : Host World} {c c' : Chain World} {ctx : Ctx} {now : Timestamp}
  {notice : Notice World} {p p' : Picture}

/-! ## Payments -/

/-- What somebody is paid a fee for. -/
inductive Role where
  | keeper
  | treasury
  deriving DecidableEq

structure Payment where
  role : Role
  receiver : Address
  amount : ℤ

/-- Everything paid to `who` in one role. -/
def total (role : Role) (who : Address) (payments : List Payment) : ℤ :=
  (payments.map fun payment =>
    if payment.role = role ∧ payment.receiver = who then payment.amount else 0).sum

theorem total_append (role : Role) (who : Address) (first second : List Payment) :
    total role who (first ++ second) = total role who first + total role who second := by
  rw [total, List.map_append, List.sum_append]
  rfl

@[simp] theorem total_nil (role : Role) (who : Address) : total role who [] = 0 := rfl

@[simp] theorem total_cons (role : Role) (who : Address) (payment : Payment) (rest : List Payment) :
    total role who (payment :: rest) =
      (if payment.role = role ∧ payment.receiver = who then payment.amount else 0) +
        total role who rest := by
  rw [total, List.map_cons, List.sum_cons]
  rfl

/-- The two parts of a fee. Without a treasury there is no protocol fee. -/
def shares (treasury : Option Address) (keeper : Address) (keeperFee protocolFee : ℤ) :
    List Payment :=
  ⟨.keeper, keeper, keeperFee⟩ ::
    (treasury.map fun treasury => ⟨.treasury, treasury, protocolFee⟩).toList

theorem total_shares (role : Role) (who : Address) (treasury : Option Address) (keeper : Address)
    (keeperFee protocolFee : ℤ) :
    total role who (shares treasury keeper keeperFee protocolFee) =
      (if role = .keeper ∧ keeper = who then keeperFee else 0) +
        if role = .treasury ∧ treasury = some who then protocolFee else 0 := by
  cases treasury with
  | none => cases role <;> simp [shares]
  | some treasury => cases role <;> simp [shares]

/-- The transfers with which a call pays what it earned. -/
def settlement (config : Config) (keeper : Address) (payout : Payout) : List Payment :=
  (shares config.treasury keeper payout.keeperFees payout.protocolFees).filter fun payment =>
    0 < payment.amount

/-- One transfer of fees out of the registry. -/
def Chain.pay (host : Host World) (token : Address) (c : Chain World) (payment : Payment) :
    Result (Chain World) :=
  c.transfer host token host.registry payment.receiver payment.amount

theorem payOut_eq_pay (host : Host World) (c : Chain World) (token : Address) (payment : Payment) :
    c.payOut host token payment.receiver payment.amount =
      ([payment].filter fun payment => 0 < payment.amount).foldlM (Chain.pay host token) c := by
  unfold Chain.payOut
  split
  next hpos =>
    rw [List.filter_cons_of_pos (by simpa using hpos), List.filter_nil, List.foldlM_cons]
    change _ = (Chain.pay host token c payment >>= pure)
    rw [bind_pure]
    rfl
  next hnone =>
    rw [List.filter_cons_of_neg (by simpa using hnone)]
    rfl

/-- A call pays by these transfers and no others, in order. -/
theorem settle_eq (host : Host World) (c : Chain World) (keeper : Address) (payout : Payout) :
    settle host c keeper payout =
      (settlement c.reg.config keeper payout).foldlM (Chain.pay host c.reg.config.feeToken) c := by
  have hfirst := payOut_eq_pay host c c.reg.config.feeToken ⟨.keeper, keeper, payout.keeperFees⟩
  rw [settlement, shares, ← List.singleton_append, List.filter_append,
    List.foldlM_append, ← hfirst, settle]
  cases hpaid : c.payOut host c.reg.config.feeToken keeper payout.keeperFees with
  | error why => rfl
  | ok paid =>
      have hreg : paid.reg = c.reg := by
        rw [Chain.payOut_frame hpaid]
      dsimp only [bind, Except.bind]
      rw [hreg]
      cases c.reg.config.treasury with
      | none => rfl
      | some treasury => exact payOut_eq_pay host paid c.reg.config.feeToken ⟨.treasury,
          treasury, _⟩

/-- Transfers of nothing are left out. -/
theorem total_settlement (role : Role) (who : Address) (config : Config) (keeper : Address)
    {payout : Payout} (hkeeper : 0 ≤ payout.keeperFees) (hprotocol : 0 ≤ payout.protocolFees) :
    total role who (settlement config keeper payout) =
      total role who (shares config.treasury keeper payout.keeperFees payout.protocolFees) := by
  have hdropped : ∀ payments : List Payment, (∀ payment ∈ payments, 0 ≤ payment.amount) →
      total role who (payments.filter fun payment => 0 < payment.amount) =
        total role who payments := by
    intro payments hpayments
    induction payments with
    | nil => rfl
    | cons payment rest ih =>
        have hrest := ih fun payment hmem => hpayments payment (List.mem_cons_of_mem _ hmem)
        by_cases hpos : 0 < payment.amount
        · rw [List.filter_cons_of_pos (by simpa using hpos), total_cons, total_cons, hrest]
        · have hzero : payment.amount = 0 :=
            le_antisymm (not_lt.mp hpos) (hpayments payment List.mem_cons_self)
          rw [List.filter_cons_of_neg (by simpa using hpos), total_cons, hrest, hzero, ite_self,
            zero_add]
  apply hdropped
  intro payment hmem
  rcases List.mem_cons.mp hmem with rfl | hmem
  · exact hkeeper
  · obtain ⟨treasury, -, rfl⟩ := Option.mem_map.mp (Option.mem_toList.mp hmem)
    exact hprotocol

/-! ## What receipts tell -/

/-- What events say was paid. Only the last protocol fee set says to whom protocol fees go. -/
def feesTold : Option Address → List Event → List Payment
  | _, [] => []
  | treasury, .jobExecuted _ keeper _ fee protocolFee _ _ _ _ _ :: rest =>
      shares treasury keeper (fee - protocolFee) protocolFee ++ feesTold treasury rest
  | _, .protocolFeeSet _ treasury :: rest => feesTold treasury rest
  | treasury, _ :: rest => feesTold treasury rest

/-- What one run earned. -/
def Execution.shares (e : Execution World) : List Payment :=
  SoroCron.shares e.before.chain.reg.config.treasury e.keeper
    (e.after.payout.keeperFees - e.before.payout.keeperFees)
    (e.after.payout.protocolFees - e.before.payout.protocolFees)

theorem feesTold_deactivated (condition : Prop) [Decidable condition] (treasury : Option Address)
    (jobId : JobId) (failures : ℕ) (rest : List Event) :
    feesTold treasury ((if condition then [.jobDeactivated jobId failures] else []) ++ rest) =
      feesTold treasury rest := by
  split
  · rfl
  · rfl

theorem feesTold_exhausted (condition : Prop) [Decidable condition] (treasury : Option Address)
    (jobId : JobId) (balance : ℤ) (rest : List Event) :
    feesTold treasury ((if condition then [.jobExhausted jobId balance] else []) ++ rest) =
      feesTold treasury rest := by
  split
  · rfl
  · rfl

theorem feesTold_miss (treasury : Option Address) (keepers : KeeperTable) (jobId : JobId)
    (ranBy : Address) (charged : Option Address) (rest : List Event) :
    feesTold treasury (missEvents keepers jobId ranBy charged ++ rest) =
      feesTold treasury rest := by
  cases charged with
  | none => rfl
  | some missed =>
      simp only [missEvents]
      split
      · rfl
      · rfl

/-- A run's receipt tells what it earned, and no other event of the run tells of fees. -/
theorem Ran.feesTold_eq {e : Execution World} {r : Receipt World}
    (hran : Ran host e.executor e.keeper e.jobId e.before e.after r)
    (hjobs : e.before.chain.reg.jobs.Sound) (hconfig : e.before.chain.reg.config.Sound)
    (rest : List Event) : feesTold e.before.chain.reg.config.treasury
        (r.events host e.before.chain.reg e.before.chain.now e.keeper e.jobId ++ rest) =
      e.shares ++ feesTold e.before.chain.reg.config.treasury rest := by
  obtain ⟨-, -, hsum⟩ := hran.parts hjobs hconfig
  have hkeeperFee : e.after.payout.keeperFees - e.before.payout.keeperFees =
      r.fee - r.protocolFee := by
    rw [hran.payout.1]
    omega
  have hprotocolFee : e.after.payout.protocolFees - e.before.payout.protocolFees =
      r.protocolFee := by
    rw [hran.payout.2]
    omega
  rw [Receipt.events, List.append_assoc, List.append_assoc, List.append_assoc, feesTold_deactivated,
    feesTold_exhausted, feesTold_miss, Execution.shares, hkeeperFee, hprotocolFee]
  rfl

/-- The events of a change tell of the fees of its run, paid to the treasury of that moment. -/
theorem Told.feesTold_eq (h : Told host now notice p p') (rest : List Event) :
    feesTold p.treasury (notice.events ++ rest) =
      notice.run.elim [] Execution.shares ++ feesTold p'.treasury rest := by
  cases h with
  | @ran execution r hnow hjobs hconfig hran =>
      have htreasury : (execution.after.picture execution.keeper).treasury =
          execution.before.chain.reg.config.treasury := by
        change execution.after.chain.reg.config.treasury = _
        rw [hran.reg]
        rfl
      rw [hran.notice_events, htreasury]
      exact hran.feesTold_eq hjobs hconfig rest
  | @configured _ call reg htreasury =>
      cases call with
      | setProtocolFee bps treasury => rfl
      | setUnbondingEpoch unbondingEpoch =>
          rw [AdminCall.regAfter, pushBack_eq]
          exact htreasury ▸ rfl
      | setUpgradeDelay upgradeDelay =>
          rw [AdminCall.regAfter, pushBack_eq]
          exact htreasury ▸ rfl
      | _ => exact htreasury ▸ rfl
  | _ => rfl

theorem life_feesTold {notices : List (Notice World)} (h : Life (Told host now) notices p p')
    (rest : List Event) :
    feesTold p.treasury (notices.flatMap Notice.events ++ rest) =
      (notices.filterMap Notice.run).flatMap Execution.shares ++ feesTold p'.treasury rest := by
  induction h with
  | nil => rfl
  | @cons notice notices before middle after hone _ ih =>
      rw [List.flatMap_cons, List.append_assoc, hone.feesTold_eq, ih, ← List.append_assoc]
      congr 1
      cases hrun : notice.run with
      | none => rw [List.filterMap_cons_none hrun, Option.elim_none, List.nil_append]
      | some execution => rw [List.filterMap_cons_some hrun, List.flatMap_cons, Option.elim_some]

/-! ## What calls pay -/

/-- The transfers at the end of a call that ran jobs. -/
def paymentsOf (host : Host World) (ctx : Ctx) (c : Chain World) (call : RunCall) : List Payment :=
  match authorizeKeeper host ctx c.reg call.keeper with
  | .ok (executor, info) =>
      match runJobs host executor call.keeper call.jobIds (startBatch c call.keeper info) with
      | .ok (_, b) => settlement c.reg.config call.keeper b.payout
      | .error _ => []
  | .error _ => []

def payments (host : Host World) (c : Chain World) : Action World → List Payment
  | .call ctx (.run call) =>
      match runCall host ctx c call with
      | .ok _ => paymentsOf host ctx c call
      | .error _ => []
  | _ => []

/-- The system, seen by the fees it pays. -/
def payroll (host : Host World) : Machine (Chain World) (Action World) Payment where
  step := step host
  out := payments host

/-- A call once its jobs have run, before it writes its keeper's record back and pays. -/
def runsEnd (host : Host World) (ctx : Ctx) (c : Chain World) (call : RunCall) :
    Result (Batch World) := do
  let (executor, info) ← authorizeKeeper host ctx c.reg call.keeper
  let (_, b) ← runJobs host executor call.keeper call.jobIds (startBatch c call.keeper info)
  return b

/-- The chain with the keeper's record written back, before anything is paid. -/
def Batch.recorded (b : Batch World) (keeper : Address) : Chain World :=
  { b.chain with reg := { b.chain.reg with keepers := b.record.save b.chain.reg.keepers keeper } }

/-- How balances change between the last run of a call and its end. -/
def transferred (host : Host World) (c : Chain World) : Action World → Balances
  | .call ctx (.run call) =>
      match runsEnd host ctx c call, runCall host ctx c call with
      | .ok b, .ok c' => c'.balances - b.chain.balances
      | _, _ => 0
  | _ => 0

/-- The system, seen by the balances that its fees change. -/
def transfers (host : Host World) : Machine (Chain World) (Action World) Balances where
  step := step host
  out c action := [transferred host c action]

section Calls

variable {executor keeper : Address} {info : Keeper} {b : Batch World}

theorem runsEnd_eq_ok {call : RunCall} : runsEnd host ctx c call = .ok b ↔
    ∃ executor info ran, authorizeKeeper host ctx c.reg call.keeper = .ok (executor, info) ∧
      runJobs host executor call.keeper call.jobIds (startBatch c call.keeper info) =
        .ok (ran, b) := by
  simp only [runsEnd, bind_eq_ok, Prod.exists, pure_eq_ok]
  constructor
  · rintro ⟨executor, info, hauth, ran, b, hruns, rfl⟩
    exact ⟨executor, info, ran, hauth, hruns⟩
  · rintro ⟨executor, info, ran, hauth, hruns⟩
    exact ⟨executor, info, hauth, ran, b, hruns, rfl⟩

theorem paymentsOf_eq {call : RunCall} {ran : List Bool}
    (hauth : authorizeKeeper host ctx c.reg call.keeper = .ok (executor, info))
    (hruns : runJobs host executor call.keeper call.jobIds (startBatch c call.keeper info) =
      .ok (ran, b)) :
    paymentsOf host ctx c call = settlement c.reg.config call.keeper b.payout := by
  simp only [paymentsOf, hauth, hruns]

/-- A call that ran jobs ends with its transfers, after the last of its events. -/
theorem runCall_pays {call : RunCall} (hsound : c.Sound host)
    (h : runCall host ctx c call = .ok c') :
    ∃ b, runsEnd host ctx c call = .ok b ∧ c'.log = b.chain.log ∧
      (paymentsOf host ctx c call).foldlM (Chain.pay host c.reg.config.feeToken)
        (b.recorded call.keeper) = .ok c' := by
  obtain ⟨executor, info, ran, b, hauth, hruns, hfinish, -⟩ := runCall_eq_ok h
  have hunder := runJobs_underway hsound.config hsound.jobs hruns
  refine ⟨b, runsEnd_eq_ok.mpr ⟨executor, info, ran, hauth, hruns⟩, ?_, ?_⟩
  · rw [finish_eq_ok hunder.keeperFees hunder.protocolFees hfinish]
  · have hconfig : (b.recorded call.keeper).reg.config = c.reg.config := hunder.toUnderway.config
    have hpaid : settle host (b.recorded call.keeper) call.keeper b.payout = .ok c' := hfinish
    rw [settle_eq, hconfig] at hpaid
    rw [paymentsOf_eq hauth hruns]
    exact hpaid

/-- What a settled call changed of the balances of others, told by its two shares. -/
theorem settled_shares (config : Config) (payout : Payout) (token : Address) {who : Address}
    (hwho : who ≠ host.registry) : settled host config keeper payout token who =
      if token = config.feeToken then
        total .keeper who (shares config.treasury keeper payout.keeperFees payout.protocolFees) +
          total .treasury who (shares config.treasury keeper payout.keeperFees payout.protocolFees)
      else
        0 := by
  have hmoved : ∀ receiver amount, movedBy config.feeToken host.registry receiver amount token who =
      if token = config.feeToken ∧ receiver = who then amount else 0 := by
    intro receiver amount
    have hother : ¬ (token = config.feeToken ∧ who = host.registry) := fun h => hwho h.2
    rw [movedBy_apply, if_neg hother, sub_zero]
    simp only [eq_comm (a := who)]
  rw [settled, Pi.add_apply, Pi.add_apply, hmoved, total_shares, total_shares]
  cases config.treasury with
  | none => by_cases htoken : token = config.feeToken <;> simp [htoken]
  | some treasury =>
      rw [Option.elim_some, hmoved]
      by_cases htoken : token = config.feeToken <;> simp [htoken]

/-- The balances of everybody but the registry change by what is paid, and by nothing else. -/
theorem transferred_eq (action : Action World) (hsound : c.Sound host) (token : Address)
    {who : Address} (hwho : who ≠ host.registry) : transferred host c action token who =
      if token = c.reg.config.feeToken then
        total .keeper who (payments host c action) + total .treasury who (payments host c action)
      else
        0 := by
  have hnone : (0 : Balances) token who = if token = c.reg.config.feeToken then
      total .keeper who [] + total .treasury who [] else 0 := by
    rw [total_nil, total_nil, add_zero, ite_self]
    rfl
  cases action with
  | call ctx call =>
      cases call with
      | run call =>
          cases hcall : runCall host ctx c call with
          | error why =>
              have hmoved : transferred host c (.call ctx (.run call)) = 0 := by
                simp only [transferred, hcall]
                cases runsEnd host ctx c call with
                | ok b => rfl
                | error why => rfl
              have hpays : payments host c (.call ctx (.run call)) = [] := by
                simp only [payments, hcall]
              rw [hmoved, hpays]
              exact hnone
          | ok c' =>
              obtain ⟨executor, info, ran, b, hauth, hruns, hfinish, -⟩ := runCall_eq_ok hcall
              have hunder := runJobs_underway hsound.config hsound.jobs hruns
              have hend := runsEnd_eq_ok.mpr ⟨executor, info, ran, hauth, hruns⟩
              have hpays : payments host c (.call ctx (.run call)) =
                  settlement c.reg.config call.keeper b.payout := by
                simp only [payments, hcall, paymentsOf_eq hauth hruns]
              have hmoved : transferred host c (.call ctx (.run call)) =
                  settled host c.reg.config call.keeper b.payout := by
                simp only [transferred, hend, hcall]
                rw [finish_eq_ok hunder.keeperFees hunder.protocolFees hfinish,
                  hunder.toUnderway.config, add_sub_cancel_left]
              rw [hmoved, hpays, settled_shares _ _ _ hwho,
                total_settlement _ _ _ _ hunder.keeperFees hunder.protocolFees,
                total_settlement _ _ _ _ hunder.keeperFees hunder.protocolFees]
      | _ => exact hnone
  | _ => exact hnone

/-- After its runs a call owes what they earned. -/
theorem runJobs_earned (role : Role) (who : Address) {jobIds : List JobId} {ran : List Bool}
    (h : runJobs host executor keeper jobIds (startBatch c keeper info) = .ok (ran, b)) :
    total role who
      ((runsOf host executor keeper jobIds (startBatch c keeper info)).flatMap Execution.shares) =
      total role who
        (shares c.reg.config.treasury keeper b.payout.keeperFees b.payout.protocolFees) := by
  let I : List (Execution World) → Batch World → Prop :=
    fun past b => b.chain.reg.config = c.reg.config ∧
    total role who (past.flatMap Execution.shares) =
      total role who (shares c.reg.config.treasury keeper b.payout.keeperFees b.payout.protocolFees)
  have hlast : I ([] ++ runsOf host executor keeper jobIds (startBatch c keeper info)) b := by
    refine runJobs_history ?_ ?_ [] ⟨rfl, ?_⟩ h
    · rintro past b jobId spec hpast
      exact hpast
    · rintro past b b' jobId r ⟨hconfig, hpast⟩ hran
      refine ⟨?_, ?_⟩
      · rw [hran.reg]
        exact hconfig
      · rw [List.flatMap_append, total_append, hpast, List.flatMap_singleton, Execution.shares,
          hconfig, total_shares, total_shares, total_shares]
        dsimp only
        -- What this run earned is what the payout grew by.
        split <;> split <;> omega
    · rw [total_shares]
      simp [startBatch]
  exact hlast.2

theorem runCall_payments (role : Role) (who : Address) {call : RunCall} (hsound : c.Sound host)
    (h : runCall host ctx c call = .ok c') :
    total role who (paymentsOf host ctx c call) =
      total role who ((runsMade (actsOf host ctx c (.run call))).flatMap Execution.shares) := by
  obtain ⟨executor, info, ran, b, hauth, hruns, -, hacts⟩ := runCall_eq_ok h
  have hunder := runJobs_underway hsound.config hsound.jobs hruns
  rw [paymentsOf_eq hauth hruns,
    total_settlement role who _ _ hunder.keeperFees hunder.protocolFees, hacts,
    runsMade_ran, runJobs_earned role who hruns]

end Calls

/-- A step pays what its runs earned. -/
theorem step_payments (role : Role) (who : Address) (action : Action World)
    (hsound : c.Sound host) : total role who (payments host c action) =
      total role who ((runsMade (acts host c action)).flatMap Execution.shares) := by
  cases action with
  | call ctx call =>
      cases call with
      | run call =>
          cases hcall : runCall host ctx c call with
          | ok c' =>
              have hacts : acts host c (.call ctx (.run call)) = actsOf host ctx c (.run call) := by
                simp only [acts, Call.perform, hcall]
              have hpays : payments host c (.call ctx (.run call)) =
                  paymentsOf host ctx c call := by
                simp only [payments, hcall]
              rw [hacts, hpays, runCall_payments role who hsound hcall]
          | error why =>
              have hacts : acts host c (.call ctx (.run call)) = [] := by
                simp only [acts, Call.perform, hcall]
              have hpays : payments host c (.call ctx (.run call)) = [] := by
                simp only [payments, hcall]
              rw [hacts, hpays]
              rfl
      | _ =>
          rw [runsMade_eq_nil (by simp)]
          rfl
  | _ => rfl

/-! ## Over a run -/

/-- The token of the fees is fixed at the deployment. -/
theorem step_feeToken (hsound : c.Sound host) (action : Action World) :
    (step host c action).reg.config.feeToken = c.reg.config.feeToken := by
  rcases step_settings hsound action with hkept | ⟨_, call, -, -, hreg⟩
  · rw [hkept.config]
  · rw [hreg]
    exact (adminCall_settingsOnly call c.reg c.now).feeToken

/-- Over a run everybody but the registry gets what is paid, in the token of the fees. -/
theorem transferred_run {actions : List (Action World)} (hsound : c.Sound host)
    (halong : (machine host).Along (Admissible host) c actions) (token : Address) {who : Address}
    (hwho : who ≠ host.registry) : ((transfers host).outputs c actions).sum token who =
      if token = c.reg.config.feeToken then
        total .keeper who ((payroll host).outputs c actions) +
          total .treasury who ((payroll host).outputs c actions)
      else
        0 := by
  induction actions generalizing c with
  | nil =>
      rw [Machine.outputs_nil, Machine.outputs_nil, total_nil, total_nil, add_zero, ite_self]
      rfl
  | cons action rest ih =>
      have hrest := ih (step_sound hsound halong.1) halong.2
      have hone := transferred_eq action hsound token hwho
      rw [step_feeToken hsound action] at hrest
      rw [Machine.outputs_cons, Machine.outputs_cons, List.sum_append, Pi.add_apply, Pi.add_apply,
        total_append, total_append]
      change (List.sum [transferred host c action]) token who +
        ((transfers host).outputs (step host c action) rest).sum token who = if _ then
          total .keeper who (payments host c action) +
              total .keeper who ((payroll host).outputs (step host c action) rest) +
            (total .treasury who (payments host c action) +
              total .treasury who ((payroll host).outputs (step host c action) rest))
        else 0
      rw [List.sum_singleton, hone, hrest]
      split
      · exact add_add_add_comm _ _ _ _
      · rfl

end SoroCron
