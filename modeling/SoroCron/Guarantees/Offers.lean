import SoroCron.Guarantees.EventLog
import SoroCron.KeeperBot.Watching
import SoroCron.Sdk.Handovers

/-! # Offers are found on the first page

Whom a job is offered to was proposed last of all. The SDK finds an offer if it is still the
newest one of its job on the first page of the searched window; it never reads a second page,
so that enough other proposals hide it.
-/

namespace SoroCron

open Replay Listing

variable {World : Type} {host : Host World} {c : Chain World} {server : Sdk.EventServer}
  {id : JobId}
  {address : Address}

/-! ## Offers in the log -/

/-- All offers of a log, oldest first. -/
def offers (log : List (Timestamp × Event)) : List (JobId × Address) :=
  (log.map Prod.snd).filterMap Sdk.offer

/-- The jobs that were offered, and when. -/
def offerTimes (log : List (Timestamp × Event)) : List (JobId × Timestamp) :=
  log.filterMap fun entry => (Sdk.offer entry.2).map fun offered => (offered.1, entry.1)

/-- The newest offer of the job lies in the searched window. -/
def OfferedInWindow (server : Sdk.EventServer) (c : Chain World) (id : JobId) : Prop :=
  ∃ time, LastSaid (offerTimes c.log) id time ∧ server.firstLedger c ≤ server.ledgerOf time

theorem amend_pendingOwner {jobs : JobId → Option LedgerJob} {key : JobId}
    {change : LedgerJob → LedgerJob} {job : LedgerJob} (h : amend jobs key change id = some job)
    (hkeeps : ∀ job, (change job).pendingOwner = job.pendingOwner) :
    ∃ found, jobs id = some found ∧ found.pendingOwner = job.pendingOwner := by
  by_cases heq : id = key
  · subst heq
    rw [amend_self] at h
    obtain ⟨found, hfound, rfl⟩ := Option.map_eq_some_iff.mp h
    exact ⟨found, hfound, (hkeeps found).symm⟩
  · rw [amend_of_ne heq] at h
    exact ⟨job, h, rfl⟩

/-- An entry that is offered to nobody shows no offer. -/
theorem update_pendingOwner {jobs : JobId → Option LedgerJob} {key : JobId}
    {entry : Option LedgerJob} {job : LedgerJob} (h : Function.update jobs key entry id = some job)
    (hpending : job.pendingOwner = some address)
    (hnobody : ∀ entered ∈ entry, entered.pendingOwner = none) : jobs id = some job := by
  by_cases heq : id = key
  · subst heq
    rw [Function.update_self] at h
    rw [hnobody job h] at hpending
    cases hpending
  · rwa [Function.update_of_ne heq] at h

/-- An offer that the ledger shows is made by the last event, or this says nothing about the
job's offers and the ledger showed it before. -/
theorem Ledger.apply_pendingOwner {ledger : Ledger} {event : Event} {job : LedgerJob}
    (h : (ledger.apply event).jobs id = some job) (hpending : job.pendingOwner = some address) :
    Sdk.offer event = some (id, address) ∨
      (∀ offered, Sdk.offer event = some offered → offered.1 ≠ id) ∧
        ∃ found, ledger.jobs id = some found ∧ found.pendingOwner = some address := by
  cases event with
  | jobOwnerProposed key owner proposed =>
      by_cases heq : id = key
      · left
        subst heq
        obtain ⟨found, -, rfl⟩ := Option.map_eq_some_iff.mp (amend_self.symm.trans h)
        change (if proposed = owner then none else some proposed) = some address at hpending
        split at hpending
        · cases hpending
        · exact congrArg (fun next => some (id, next)) (Option.some.inj hpending)
      · right
        refine ⟨?_, job, (amend_of_ne heq).symm.trans h, hpending⟩
        rintro offered ⟨⟩
        exact Ne.symm heq
  | jobCreated key owner target interval feePerRun deposit =>
      right
      refine ⟨nofun, job, update_pendingOwner h hpending ?_, hpending⟩
      rintro entered ⟨⟩
      rfl
  | jobOwnerChanged key previous newOwner =>
      right
      refine ⟨nofun, job, update_pendingOwner h hpending ?_, hpending⟩
      -- Whoever accepts a job ends the offer.
      intro entered hentered
      obtain ⟨found, -, rfl⟩ := Option.map_eq_some_iff.mp hentered
      rfl
  | jobCancelled key refund =>
      right
      refine ⟨nofun, job, update_pendingOwner h hpending ?_, hpending⟩
      rintro entered ⟨⟩
  | jobFunded | jobWithdrawn | jobExecuted | jobDeactivated | jobActiveSet =>
      right
      obtain ⟨found, hfound, hsame⟩ := amend_pendingOwner h fun _ => rfl
      exact ⟨nofun, found, hfound, hsame.trans hpending⟩
  | _ => exact .inr ⟨nofun, job, h, hpending⟩

/-- Whoever the ledger of a log shows was offered the job last. -/
theorem Ledger.lastSaid_of_pending {log : List (Timestamp × Event)} {job : LedgerJob}
    (h : (Ledger.ofLog log).jobs id = some job) (hpending : job.pendingOwner = some address) :
    LastSaid (offers log) id address := by
  induction log using List.reverseRecOn generalizing job with
  | nil => cases h
  | append_singleton log entry ih =>
      have hledger : Ledger.ofLog (log ++ [entry]) = (Ledger.ofLog log).apply entry.2 := by
        rw [Ledger.ofLog, List.map_append, List.foldl_append]
        rfl
      have hoffers : offers (log ++ [entry]) = offers log ++ [entry.2].filterMap Sdk.offer := by
        rw [offers, List.map_append, List.filterMap_append]
        rfl
      rw [hledger] at h
      rw [hoffers]
      rcases Ledger.apply_pendingOwner h hpending with hoffer | ⟨hothers, found, hfound, hsame⟩
      · rw [List.filterMap_cons_some hoffer]
        exact lastSaid_concat_self.mpr rfl
      · have hbefore := ih hfound hsame
        cases hoffer : Sdk.offer entry.2 with
        | none =>
            rw [List.filterMap_cons_none hoffer, List.filterMap_nil, List.append_nil]
            exact hbefore
        | some offered =>
            rw [List.filterMap_cons_some hoffer]
            exact (lastSaid_concat_of_ne (hothers offered hoffer)).mpr hbefore

theorem mem_offers {log : List (Timestamp × Event)} :
    (id, address) ∈ offers log ↔ ∃ entry ∈ log, Sdk.offer entry.2 = some (id, address) := by
  rw [offers, List.filterMap_map, List.mem_filterMap]
  rfl

theorem mem_offerTimes {log : List (Timestamp × Event)} {time : Timestamp} :
    (id, time) ∈ offerTimes log ↔ ∃ entry ∈ log, entry.1 = time ∧ ∃ next, Sdk.offer entry.2 =
      some (id, next) := by
  simp only [offerTimes, List.mem_filterMap, Option.map_eq_some_iff, Prod.mk.injEq]
  constructor
  · rintro ⟨entry, hmem, ⟨key, next⟩, hoffer, rfl, htime⟩
    exact ⟨entry, hmem, htime, next, hoffer⟩
  · rintro ⟨entry, hmem, htime, next, hoffer⟩
    exact ⟨entry, hmem, (id, next), hoffer, rfl, htime⟩

/-! ## Reachable chains -/

theorem Reachable.ledger (hreach : Reachable host c) :
    Ledger.ofLog c.log = c.reg.picture.ledger := by
  have hread : ∃ paid, ReadSoFar host c paid := by
    refine hreach.invariant (I := fun c => ∃ paid, ReadSoFar host c paid) ?_ ?_
    · intro c hstart
      exact ⟨[], hstart.read⟩
    · rintro c action - hadm ⟨paid, hread⟩
      exact ⟨_, hread.step action hadm⟩
  obtain ⟨paid, hread⟩ := hread
  exact hread.ledger

/-- A job that is offered is live, and its newest offer is the one that counts. -/
theorem Reachable.offered (hreach : Reachable host c)
    (hpending : c.reg.jobs.pendingJobOwner id = some address) :
    (c.reg.jobs.getJob id).isSome ∧ LastSaid (offers c.log) id address := by
  obtain ⟨past, hindexed⟩ := hreach.indexed
  obtain ⟨owner, howner, -⟩ := hindexed.offered id address hpending
  obtain ⟨spec, hspec, -⟩ := Option.map_eq_some_iff.mp howner
  obtain ⟨state, hstate⟩ := hreach.sound.jobs.state_of_spec hspec
  have hparts := JobTable.getJobParts_eq_some.mpr ⟨hspec, hstate⟩
  obtain ⟨job, hjob, hsame⟩ : ∃ job, (Ledger.ofLog c.log).jobs id = some job ∧
      job.pendingOwner = c.reg.jobs.pendingJobOwner id := by
    rw [hreach.ledger]
    exact ⟨_, ledgerJob_of_parts hparts, rfl⟩
  constructor
  · rw [JobTable.getJob, hparts]
    rfl
  · exact Ledger.lastSaid_of_pending hjob (hsame.trans hpending)

theorem Reachable.log_ordered (hreach : Reachable host c) :
    c.log.Pairwise fun first later => first.1 ≤ later.1 := by
  have hordered : (∀ entry ∈ c.log, entry.1 ≤ c.now) ∧
      c.log.Pairwise fun first later => first.1 ≤ later.1 := by
    refine hreach.invariant (I := fun c => (∀ entry ∈ c.log, entry.1 ≤ c.now) ∧
      c.log.Pairwise fun first later => first.1 ≤ later.1) ?_ ?_
    · intro c hstart
      rw [hstart.silent]
      exact ⟨nofun, .nil⟩
    · rintro c action hreach hadm ⟨hpast, hordered⟩
      obtain ⟨more, hmore, hpresent⟩ := KeeperBot.step_log hreach hadm
      have hnow := step_now hreach.sound action
      rw [hmore]
      refine ⟨?_, ?_⟩
      · intro entry hmem
        rcases List.mem_append.mp hmem with hold | hnew
        · exact (hpast entry hold).trans hnow
        · exact (hpresent entry hnew).trans_le hnow
      · refine List.pairwise_append.mpr ⟨hordered, ?_, ?_⟩
        · refine List.pairwise_of_forall_mem_list ?_
          intro first hfirst later hlater
          rw [hpresent first hfirst, hpresent later hlater]
        · intro first hfirst later hlater
          rw [hpresent later hlater]
          exact hpast first hfirst
  exact hordered.2

/-! ## The searched window -/

/-- What the log holds from the first searched ledger on. -/
def searched (server : Sdk.EventServer) (c : Chain World) : List (Timestamp × Event) :=
  c.log.filter fun entry => server.firstLedger c ≤ server.ledgerOf entry.1

theorem offers_searched (server : Sdk.EventServer) (c : Chain World) :
    offers (searched server c) = server.window c := rfl

theorem mem_searched {entry : Timestamp × Event} :
    entry ∈ searched server c ↔ entry ∈ c.log ∧ server.firstLedger c ≤ server.ledgerOf entry.1 := by
  rw [searched, List.mem_filter, decide_eq_true_eq]

/-- The searched window is the end of the log. -/
theorem Reachable.searched_tail (hreach : Reachable host c) (server : Sdk.EventServer) :
    ∃ before, c.log = before ++ searched server c := by
  refine exists_append_filter (hreach.log_ordered.imp ?_)
  intro first later hle hfirst
  rw [decide_eq_true_eq] at hfirst ⊢
  exact hfirst.trans (server.ordered hle)

theorem Reachable.offeredInWindow_iff (hreach : Reachable host c) :
    OfferedInWindow server c id ↔ ∃ next, (id, next) ∈ server.window c := by
  simp only [← offers_searched, mem_offers]
  constructor
  · rintro ⟨time, hlast, hwindow⟩
    obtain ⟨entry, hmem, rfl, next, hoffer⟩ := mem_offerTimes.mp hlast.mem
    exact ⟨next, entry, mem_searched.mpr ⟨hmem, hwindow⟩, hoffer⟩
  · rintro ⟨next, entry, hmem, hoffer⟩
    -- The newest offer of the window is the newest of all.
    obtain ⟨before, hbefore⟩ := hreach.searched_tail server
    obtain ⟨time, hlast⟩ := exists_lastSaid (mem_offerTimes.mpr ⟨entry, hmem, rfl, next, hoffer⟩)
    obtain ⟨newest, hnewest, rfl, -⟩ := mem_offerTimes.mp hlast.mem
    refine ⟨newest.1, ?_, (mem_searched.mp hnewest).2⟩
    rw [hbefore, offerTimes, List.filterMap_append]
    exact hlast.append _

/-- An offer that counts is the newest of its job in the window, if any is there. -/
theorem Reachable.lastSaid_window (hreach : Reachable host c)
    (hpending : c.reg.jobs.pendingJobOwner id = some address)
    (hwindow : OfferedInWindow server c id) : LastSaid (server.window c) id address := by
  obtain ⟨before, hbefore⟩ := hreach.searched_tail server
  obtain ⟨next, hmem⟩ := hreach.offeredInWindow_iff.mp hwindow
  have hlast := (hreach.offered hpending).2
  rw [hbefore, offers, List.map_append, List.filterMap_append] at hlast
  exact hlast.of_append hmem

/-! ## What is found -/

/-- The SDK finds the live jobs whose pending owner is `address` and whose newest offer lies in
the searched window, each once. -/
def FindsOffers (server : Sdk.EventServer) (c : Chain World) (address : Address) : Prop :=
  ∃ ids, Sdk.handoversTo server c address = .ok ids ∧ ids.Nodup ∧
    ∀ id, id ∈ ids ↔ (c.reg.jobs.getJob id).isSome ∧ c.reg.jobs.pendingJobOwner id = some address ∧
      OfferedInWindow server c id

/-- Of every such job, the newest offer on the first page names `address`. -/
def OnFirstPage (server : Sdk.EventServer) (c : Chain World) (address : Address) : Prop :=
  ∀ id, c.reg.jobs.pendingJobOwner id = some address → OfferedInWindow server c id →
    LastSaid (server.firstPage c) id address

/-- What is on the first page lies in the window, so that only offers can be missed. -/
theorem Reachable.findsOffers_iff (hreach : Reachable host c)
    (hserved : server.firstLedger c ≤ server.ledgerOf c.now) :
    FindsOffers server c address ↔ OnFirstPage server c address := by
  obtain ⟨found, hfound, hnodup, hmem⟩ := Sdk.handoversTo_eq_ok hserved address
  constructor
  · rintro ⟨ids, hids, -, hexact⟩ id hpending hwindow
    cases hfound.symm.trans hids
    have hlisted := (hexact id).mpr ⟨(hreach.offered hpending).1, hpending, hwindow⟩
    exact ((hmem id).mp hlisted).1
  · intro hpage
    refine ⟨found, hfound, hnodup, ?_⟩
    intro id
    rw [hmem id]
    constructor
    · rintro ⟨hlast, hpending⟩
      refine ⟨(hreach.offered hpending).1, hpending, hreach.offeredInWindow_iff.mpr ⟨address, ?_⟩⟩
      exact List.mem_of_mem_take hlast.mem
    · rintro ⟨-, hpending, hwindow⟩
      exact ⟨hpage id hpending hwindow, hpending⟩

/-- The SDK finds exactly the offers of the searched window if and only if they are on its first
page, and always if the whole window fits on one page. -/
theorem handoversTo_finds_offers (hreach : Reachable host c)
    (hserved : server.firstLedger c ≤ server.ledgerOf c.now) (address : Address) :
    (FindsOffers server c address ↔ OnFirstPage server c address) ∧
      ((server.window c).length ≤ min server.count 1000 → FindsOffers server c address) := by
  have hiff : FindsOffers server c address ↔ OnFirstPage server c address :=
    hreach.findsOffers_iff hserved
  refine ⟨hiff, ?_⟩
  intro hfits
  have hpage : server.firstPage c = server.window c := List.take_of_length_le hfits
  rw [hiff]
  intro id hpending hwindow
  rw [hpage]
  exact hreach.lastSaid_window hpending hwindow

/-- A ledger every five seconds, all of them retained. -/
def fullServer : Sdk.EventServer := { Sdk.everyFive with earliest := 1, count := 10000 }

def offerFirst : Action Unit := .call ⟨[⟨5⟩]⟩ (.job (.proposeJobOwner 0 ⟨6⟩))

/-- Two owners create a job each, and the first one offers its job to `⟨6⟩`. -/
def offeringRun : List (Action Unit) :=
  [.call ⟨[⟨5⟩]⟩ (.job (.createJob ⟨5⟩ minutely 50)),
    .call ⟨[⟨9⟩]⟩ (.job (.createJob ⟨9⟩ minutely 50)),
    offerFirst]

def offeredChain : Chain Unit :=
  (machine plainHost).run (deployment ⟨3⟩ 1000 100 10 1000) offeringRun

theorem offeredChain_reachable : Reachable plainHost offeredChain := by
  refine ⟨_, offeringRun, deployment_deployed ⟨3⟩ 10 1000 (by decide) (by decide), ?_, rfl⟩
  simp [offeringRun, offerFirst, Machine.Along, Admissible, Call.WellTyped, JobParams.WellTyped,
    minutely, u64Max, i128Max]

theorem handoversTo_finds_offers_offered :
    Sdk.handoversTo fullServer offeredChain ⟨6⟩ = .ok [0] ∧
      FindsOffers fullServer offeredChain ⟨6⟩ := by
  have hserved : fullServer.firstLedger offeredChain ≤
      fullServer.ledgerOf offeredChain.now := by decide
  exact ⟨rfl, (handoversTo_finds_offers offeredChain_reachable hserved ⟨6⟩).2 (by decide)⟩

/-! ## A second page -/

/-- The first owner repeats its offer `count` times, and then the other one offers its job to
`⟨7⟩`. -/
def floodedChain (count : ℕ) : Chain Unit :=
  (machine plainHost).run offeredChain
    (List.replicate count offerFirst ++ [.call ⟨[⟨9⟩]⟩ (.job (.proposeJobOwner 1 ⟨7⟩))])

theorem floodedChain_reachable (count : ℕ) : Reachable plainHost (floodedChain count) := by
  refine offeredChain_reachable.run (Machine.along_append.mpr ⟨?_, ?_⟩)
  · generalize offeredChain = c
    induction count generalizing c with
    | zero => exact trivial
    | succ count ih => exact ⟨trivial, ih _⟩
  · exact ⟨trivial, trivial⟩

/-- An offer that is repeated changes nothing and is published again. -/
theorem run_offerFirst (log : List (Timestamp × Event)) (count : ℕ) :
    (machine plainHost).run { offeredChain with log } (List.replicate count offerFirst) =
      { offeredChain with
        log := log ++ List.replicate count (1000, .jobOwnerProposed 0 ⟨5⟩ ⟨6⟩) } := by
  induction count generalizing log with
  | zero => simp only [List.replicate_zero, List.append_nil, Machine.run_nil]
  | succ count ih =>
      have hstep : (machine plainHost).step { offeredChain with log } offerFirst =
          { offeredChain with log := log ++ [(1000, .jobOwnerProposed 0 ⟨5⟩ ⟨6⟩)] } := rfl
      rw [List.replicate_succ, Machine.run_cons, hstep, ih, List.append_assoc]
      rfl

theorem floodedChain_eq (count : ℕ) : floodedChain count =
    { offeredChain with
      reg := { offeredChain.reg with jobs := offeredChain.reg.jobs.setPendingOwner 1 ⟨7⟩ }
      log := offeredChain.log ++ List.replicate count (1000, .jobOwnerProposed 0 ⟨5⟩ ⟨6⟩) ++
        [(1000, .jobOwnerProposed 1 ⟨9⟩ ⟨7⟩)] } := by
  have hflood : (machine plainHost).run offeredChain (List.replicate count offerFirst) = _ :=
    run_offerFirst offeredChain.log count
  rw [floodedChain, Machine.run_append, hflood]
  rfl

theorem now_floodedChain (count : ℕ) : (floodedChain count).now = 1000 := by
  rw [floodedChain_eq]
  rfl

theorem firstLedger_floodedChain (count : ℕ) : fullServer.firstLedger (floodedChain count) = 1 := by
  rw [Sdk.EventServer.firstLedger, now_floodedChain]
  decide

/-- The window holds all offers, the one to `⟨7⟩` last. -/
theorem window_floodedChain (count : ℕ) : fullServer.window (floodedChain count) =
    List.replicate (count + 1) (0, ⟨6⟩) ++ [(1, ⟨7⟩)] := by
  have hall : searched fullServer (floodedChain count) = (floodedChain count).log := by
    refine List.filter_eq_self.mpr ?_
    intro entry hmem
    rw [floodedChain_eq] at hmem
    simp only [List.mem_append, List.mem_replicate, List.mem_singleton] at hmem
    have htime : entry.1 = 1000 := by
      rcases hmem with (hfirst | ⟨-, rfl⟩) | rfl
      · have hfirsts : ∀ entry ∈ offeredChain.log, entry.1 = 1000 := by decide
        exact hfirsts entry hfirst
      · rfl
      · rfl
    rw [htime, firstLedger_floodedChain]
    decide
  have hoffer : Sdk.offer (.jobOwnerProposed 0 ⟨5⟩ ⟨6⟩) = some (0, ⟨6⟩) := rfl
  rw [← offers_searched, hall, floodedChain_eq, offers, List.map_append, List.map_append,
    List.filterMap_append,
    List.filterMap_append, List.map_replicate, List.filterMap_replicate_of_some hoffer]
  rfl

/-- With one page full of other offers before it, the offer to `⟨7⟩` is not found. -/
theorem handoversTo_misses_offer :
    Reachable plainHost (floodedChain 999) ∧
      fullServer.firstLedger (floodedChain 999) ≤ fullServer.ledgerOf (floodedChain 999).now ∧
      ¬ FindsOffers fullServer (floodedChain 999) ⟨7⟩ := by
  have hreach := floodedChain_reachable 999
  have hserved : fullServer.firstLedger (floodedChain 999) ≤
      fullServer.ledgerOf (floodedChain 999).now := by
    rw [firstLedger_floodedChain, now_floodedChain]
    decide
  refine ⟨hreach, hserved, ?_⟩
  rw [hreach.findsOffers_iff hserved]
  intro hpage
  have hpending : (floodedChain 999).reg.jobs.pendingJobOwner 1 = some ⟨7⟩ := by
    rw [floodedChain_eq]
    exact Store.get_set_self _ _ _
  have hwindow : OfferedInWindow fullServer (floodedChain 999) 1 := by
    rw [hreach.offeredInWindow_iff, window_floodedChain]
    exact ⟨⟨7⟩, List.mem_append_right _ (List.mem_singleton_self _)⟩
  have hlisted := (hpage 1 hpending hwindow).mem
  have hfirst : fullServer.firstPage (floodedChain 999) = List.replicate 1000 (0, ⟨6⟩) := by
    rw [Sdk.EventServer.firstPage, window_floodedChain]
    exact List.take_left' List.length_replicate
  rw [hfirst] at hlisted
  cases List.eq_of_mem_replicate hlisted

end SoroCron
