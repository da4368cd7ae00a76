import SoroCron.Registry.Deployment
import SoroCron.Registry.Views

/-! # Creating jobs together

Creating a list of jobs is all or nothing, and its one transfer and its one round of checks
leave the chain that creating the jobs one by one would.
-/

namespace SoroCron

open Outcome Bounded

variable {World : Type} {host : Host World} {ctx : Ctx} {c c' : Chain World} {owner : Address}
  {params : JobParams} {deposit : ℤ} {pairs : List (JobParams × ℤ)} {ids : List JobId}

/-- A token that accepts one payment accepts it in two parts, one after the other. -/
def Divisible (host : Host World) : Prop :=
  ∀ around token sender receiver first second, 0 ≤ first → 0 ≤ second →
    first + second ≤ around.balances token sender →
    host.acceptsTransfer around token sender receiver (first + second) = true →
      host.acceptsTransfer around token sender receiver first = true ∧
        host.acceptsTransfer { around with
          balances := around.balances + movedBy token sender receiver first }
          token sender receiver second = true

/-- `createJob` for each pair in order. -/
def createEach (host : Host World) (ctx : Ctx) (owner : Address) :
    List (JobParams × ℤ) → Chain World → Result (List JobId × Chain World)
  | [], c => .ok ([], c)
  | (params, deposit) :: rest, c => do
      let (id, c) ← createJob host ctx c owner params deposit
      let (ids, c) ← createEach host ctx owner rest c
      return (id :: ids, c)

/-! ## One job -/

/-- A job stays valid while the settings stay and no leader disappears. -/
theorem validateJob_mono {reg reg' : Registry} (hconfig : reg'.config = reg.config)
    (hleaders : ∀ id, reg.jobs.states.get id ≠ none → reg'.jobs.states.get id ≠ none)
    (h : validateJob host reg params deposit = .ok ()) :
    validateJob host reg' params deposit = .ok () := by
  simp only [validateJob, bind_eq_ok, rejectIf_eq_ok, exists_unit, not_exists, not_and] at h ⊢
  rw [hconfig]
  obtain ⟨interval, hinterval, hdeposit, hallowed, hleader⟩ := h
  exact ⟨interval, hinterval, hdeposit, hallowed, fun leader hafter =>
    hleaders leader (hleader leader hafter)⟩

theorem validateJob_deposit {reg : Registry} (h : validateJob host reg params deposit = .ok ()) :
    0 < deposit := by
  obtain ⟨⟨interval, hinterval⟩, hdeposit, -, -⟩ := validateJob_eq_ok h
  obtain ⟨-, -, -, hfee, -⟩ := validateSchedule_eq_ok hinterval
  omega

theorem createJob_succeeds {paid : Chain World} {id : JobId} (hlive : c.reg.config.paused = false)
    (hauth : owner ∈ ctx.signers ∧ owner ≠ host.registry)
    (hvalid : validateJob host c.reg params deposit = .ok ())
    (hpaid : c.transfer host c.reg.config.feeToken owner host.registry deposit = .ok paid)
    (hinsert : insertJob paid owner params deposit = .ok (id, c')) :
    createJob host ctx c owner params deposit = .ok (id, c') := by
  simp only [createJob, ensureNotPaused, bind_eq_ok, raise_eq_ok, rejectIf_eq_ok, exists_unit,
    requireAuth_eq_ok, Bool.not_eq_true]
  exact ⟨hlive, hauth, hvalid, paid, hpaid, hinsert⟩

/-- The chain after `owner` paid `amount` of the fee token in. -/
def Chain.paidIn (host : Host World) (c : Chain World) (owner : Address) (amount : ℤ) :
    Chain World :=
  { c with balances := c.balances + movedBy c.reg.config.feeToken owner host.registry amount }

theorem paidIn_eq_ok {amount : ℤ} {paid : Chain World} :
    c.transfer host c.reg.config.feeToken owner host.registry amount = .ok paid ↔
      (0 ≤ amount ∧ amount ≤ c.balances c.reg.config.feeToken owner ∧
        host.acceptsTransfer c.toSurroundings c.reg.config.feeToken owner
          host.registry amount = true) ∧
      paid = c.paidIn host owner amount :=
  Chain.transfer_eq_ok

/-- One payment is two, and a job can be stored between them. -/
theorem paidIn_withJob (c : Chain World) (owner : Address) (params : JobParams)
    (deposit first second : ℤ) :
    (c.paidIn host owner (first + second)).withJob owner params deposit =
      ((c.paidIn host owner first).withJob owner params deposit).paidIn host owner second := by
  unfold Chain.paidIn
  rw [movedBy_add, ← add_assoc]
  rfl

theorem paidIn_left (hother : owner ≠ host.registry) (amount : ℤ) :
    (c.paidIn host owner amount).balances c.reg.config.feeToken owner =
      c.balances c.reg.config.feeToken owner - amount := by
  change c.balances _ _ + movedBy c.reg.config.feeToken owner host.registry amount _ _ = _
  rw [movedBy_apply, if_neg fun h => hother h.2, if_pos ⟨rfl, rfl⟩]
  omega

/-! ## The list -/

theorem deposits_nonneg {reg : Registry}
    (hvalid : ∀ pair ∈ pairs, validateJob host reg pair.1 pair.2 = .ok ()) :
    0 ≤ (pairs.map Prod.snd).sum := by
  apply List.sum_nonneg
  intro deposit hdeposit
  obtain ⟨pair, hpair, rfl⟩ := List.mem_map.mp hdeposit
  exact (validateJob_deposit (hvalid pair hpair)).le

theorem insertJobs_ids (h : insertJobs owner pairs c = .ok (ids, c')) :
    ids = List.range' c.reg.jobs.nextJobId pairs.length := by
  induction pairs generalizing c c' ids with
  | nil =>
      simp only [insertJobs, Except.ok.injEq, Prod.mk.injEq] at h
      exact h.1.symm
  | cons pair rest ih =>
      obtain ⟨params, deposit⟩ := pair
      simp only [insertJobs, bind_eq_ok, Prod.exists, insertJob_eq_ok, pure_eq_ok,
        Prod.mk.injEq] at h
      obtain ⟨_, next, ⟨-, rfl, rfl⟩, others, last, hrest, rfl, -⟩ := h
      rw [ih hrest, Chain.withJob_nextJobId, List.length_cons, List.range'_succ]

/-- Storing the jobs after one payment of everything is creating them one by one. -/
theorem createEach_of_insertJobs (hdivides : Divisible host) (hlive : c.reg.config.paused = false)
    (hauth : owner ∈ ctx.signers ∧ owner ≠ host.registry)
    (hvalid : ∀ pair ∈ pairs, validateJob host c.reg pair.1 pair.2 = .ok ())
    (hcovers : (pairs.map Prod.snd).sum ≤ c.balances c.reg.config.feeToken owner)
    (haccepts : host.acceptsTransfer c.toSurroundings c.reg.config.feeToken owner host.registry
      (pairs.map Prod.snd).sum = true)
    (hinsert : insertJobs owner pairs (c.paidIn host owner (pairs.map Prod.snd).sum) =
      .ok (ids, c')) :
    createEach host ctx owner pairs c = .ok (ids, c') := by
  induction pairs generalizing c c' ids with
  | nil =>
      simp only [insertJobs, Except.ok.injEq, Prod.mk.injEq] at hinsert
      obtain ⟨rfl, rfl⟩ := hinsert
      simp [createEach, Chain.paidIn]
  | cons pair rest ih =>
      obtain ⟨params, deposit⟩ := pair
      have hfirst : validateJob host c.reg params deposit = .ok () := hvalid _ List.mem_cons_self
      have hothers : ∀ pair ∈ rest, validateJob host c.reg pair.1 pair.2 = .ok () :=
          fun pair hpair =>
        hvalid pair (List.mem_cons_of_mem _ hpair)
      have hdeposit := (validateJob_deposit hfirst).le
      have hrest := deposits_nonneg hothers
      rw [List.map_cons, List.sum_cons] at hcovers haccepts hinsert
      obtain ⟨haccepts₁, haccepts₂⟩ := hdivides _ _ _ _ _ _ hdeposit hrest hcovers haccepts
      simp only [insertJobs, bind_eq_ok, Prod.exists, insertJob_eq_ok, pure_eq_ok,
        Prod.mk.injEq] at hinsert
      obtain ⟨_, _, ⟨hroom, rfl, rfl⟩, others, last, hlast, rfl, rfl⟩ := hinsert
      have hone : createJob host ctx c owner params deposit =
          .ok (c.reg.jobs.nextJobId, (c.paidIn host owner deposit).withJob owner params deposit) :=
        createJob_succeeds hlive hauth hfirst
          (paidIn_eq_ok.mpr ⟨⟨hdeposit, by omega, haccepts₁⟩, rfl⟩)
          (insertJob_eq_ok.mpr ⟨hroom, rfl, rfl⟩)
      -- The jobs to come stay valid: a new job only adds a leader they could follow.
      have hvalid' : ∀ pair ∈ rest, validateJob host
          ((c.paidIn host owner deposit).withJob owner params deposit).reg pair.1 pair.2 =
            .ok () := by
        intro pair hpair
        have hconfig : ((c.paidIn host owner deposit).withJob owner params deposit).reg.config =
            c.reg.config := rfl
        refine validateJob_mono hconfig ?_ (hothers pair hpair)
        intro id hleader
        rw [Chain.withJob_states, Store.get_set]
        split
        · exact Option.some_ne_none _
        · exact hleader
      have hleft : (rest.map Prod.snd).sum ≤
          (c.paidIn host owner deposit).balances c.reg.config.feeToken owner := by
        rw [paidIn_left hauth.2]
        omega
      rw [paidIn_withJob] at hlast
      have htail := ih (c := (c.paidIn host owner deposit).withJob owner params deposit) hlive
        hvalid' hleft
        haccepts₂ hlast
      simp only [createEach, hone, bind_eq_ok, Prod.exists, pure_eq_ok]
      exact ⟨_, _, rfl, _, _, htail, rfl⟩

theorem insertJobs_balances (h : insertJobs owner pairs c = .ok (ids, c')) :
    c'.balances = c.balances := by
  refine insertJobs_invariant (I := fun _ last => last.balances = c.balances) ?_ rfl h
  intro params deposit rest last _ hlast
  exact hlast

/-- The last of the running totals fits if there is room for the first. -/
theorem validateJobs_fits {reg : Registry} {total total' : ℤ} (hstart : total ≤ i128Max)
    (h : validateJobs host reg pairs total = .ok total') : total' ≤ i128Max := by
  induction pairs generalizing total with
  | nil =>
      simp only [validateJobs, Except.ok.injEq] at h
      omega
  | cons pair rest ih =>
      obtain ⟨params, deposit⟩ := pair
      simp only [validateJobs, bind_eq_ok, okOr_eq_ok, checkedInt_eq_some, exists_unit] at h
      obtain ⟨-, next, ⟨⟨-, hfits⟩, rfl⟩, hrest⟩ := h
      exact ih hfits hrest

/-- No running total of the deposits overflows: none is more than the whole. -/
theorem createJobs_fits {jobs : List JobParams} {deposits : List ℤ}
    (h : createJobs host ctx c owner jobs deposits = .ok (ids, c')) (n : ℕ) :
    (deposits.take n).sum ≤ i128Max := by
  obtain ⟨-, -, hlength, hvalid, -⟩ := createJobs_eq_ok h
  have hdeposits : (jobs.zip deposits).map Prod.snd = deposits := List.map_snd_zip hlength.ge
  simp only [createJobs, bind_eq_ok, raise_eq_ok, exists_unit] at h
  obtain ⟨-, -, -, -, total, htotal, -⟩ := h
  have hzero : (0 : ℤ) ≤ i128Max := by decide
  have hfits := validateJobs_fits hzero htotal
  rw [(validateJobs_eq_ok htotal).1, zero_add, hdeposits] at hfits
  have hrest : 0 ≤ (deposits.drop n).sum := by
    apply List.sum_nonneg
    intro deposit hdeposit
    have hmem : deposit ∈ (jobs.zip deposits).map Prod.snd :=
      hdeposits.symm ▸ List.mem_of_mem_drop hdeposit
    obtain ⟨pair, hpair, rfl⟩ := List.mem_map.mp hmem
    exact (validateJob_deposit (hvalid pair hpair)).le
  have hsplit := List.sum_take_add_sum_drop deposits n
  omega

/-- A list of jobs is created together with what creating them one by one leaves, or not at all. -/
theorem createJobs_eq_each (hdivides : Divisible host) (c : Chain World) (ctx : Ctx)
    (owner : Address) (jobs : List JobParams) (deposits : List ℤ) :
    (∀ why, createJobs host ctx c owner jobs deposits = .error why →
      step host c (.call ctx (.job (.createJobs owner jobs deposits))) = c) ∧
    ∀ ids c', createJobs host ctx c owner jobs deposits = .ok (ids, c') →
      ids = List.range' c.reg.jobs.jobCount jobs.length ∧
        createEach host ctx owner (jobs.zip deposits) c = .ok (ids, c') ∧
        c'.balances = c.balances +
          movedBy c.reg.config.feeToken owner host.registry deposits.sum ∧
        ∀ n, (deposits.take n).sum ≤ i128Max := by
  refine ⟨?_, ?_⟩
  · intro why hfails
    have hcall : Call.perform host ctx c (.job (.createJobs owner jobs deposits)) = .error why := by
      simp only [Call.perform, jobCall, hfails]
      rfl
    simp [step, Chain.after, hcall]
  · intro ids c' hcall
    obtain ⟨hlive, hauth, hlength, hvalid, paid, hpaid, hinsert⟩ := createJobs_eq_ok hcall
    have hdeposits : (jobs.zip deposits).map Prod.snd = deposits := List.map_snd_zip hlength.ge
    obtain ⟨⟨-, hcovers, haccepts⟩, rfl⟩ := paidIn_eq_ok.mp hpaid
    refine ⟨?_, ?_, ?_, ?_⟩
    · rw [insertJobs_ids hinsert, List.length_zip, ← hlength, min_self]
      rfl
    · exact createEach_of_insertJobs hdivides hlive hauth hvalid hcovers haccepts hinsert
    · rw [insertJobs_balances hinsert, hdeposits]
      rfl
    · exact createJobs_fits hcall

theorem plainHost_divisible : Divisible plainHost := by
  intro around token sender receiver first second hfirst hsecond _ haccepts
  simp only [plainHost, decide_eq_true_eq] at haccepts ⊢
  rcases haccepts with hregistry | hfits
  · exact ⟨.inl hregistry, .inl hregistry⟩
  · refine ⟨.inr (by omega), .inr ?_⟩
    have hmoved : movedBy token sender receiver first token receiver ≤ first := by
      rw [movedBy_apply]
      split <;> split <;> omega
    rw [Pi.add_apply, Pi.add_apply]
    omega

/-- Two jobs of one owner on a fresh registry, paid for together. -/
theorem createJobs_eq_each_two :
    ∃ c', createEach plainHost ⟨[⟨5⟩]⟩ ⟨5⟩ [(minutely, 20), (minutely, 30)]
        (deployment ⟨3⟩ 1000 100 10 1000) = .ok ([0, 1], c') ∧
      c'.balances = (deployment ⟨3⟩ 1000 100 10 1000).balances +
        movedBy feeAsset ⟨5⟩ registryAddress 50 := by
  obtain ⟨ids, c', hcall⟩ :
      ∃ ids c', createJobs plainHost ⟨[⟨5⟩]⟩ (deployment ⟨3⟩ 1000 100 10 1000) ⟨5⟩
      [minutely, minutely] [20, 30] = .ok (ids, c') := ⟨_, _, rfl⟩
  obtain ⟨rfl, heach, hpaid, -⟩ := (createJobs_eq_each plainHost_divisible _ _ _ _ _).2 ids c' hcall
  exact ⟨c', heach, hpaid⟩

end SoroCron
