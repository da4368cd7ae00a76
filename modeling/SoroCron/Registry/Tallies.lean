import Mathlib.Logic.Function.Basic
import SoroCron.Registry.Payments

/-! # Tallies

A call in progress without what the order of its runs may show: the other contracts, the log, the
balances of strangers, and the caller's moving average of lateness. What a job's turn adds to it
depends on that turn alone, and turns of different jobs commute.
-/

namespace SoroCron

open Outcome Bounded

variable {World : Type} {host : Host World} {executor keeper : Address} {jobId : JobId}
  {b b' : Batch World} {holders : List Address}

/-! ## Balances of some holders -/

/-- The balances of these holders, of each token. -/
def only (holders : List Address) (balances : Balances) : Balances :=
  fun token holder => if holder ∈ holders then balances token holder else 0

theorem only_add (first second : Balances) :
    only holders (first + second) = only holders first + only holders second := by
  funext token holder
  simp only [only, Pi.add_apply]
  split
  · rfl
  · rfl

theorem only_of_mem (balances : Balances) (token : Address) {holder : Address}
    (hmem : holder ∈ holders) : only holders balances token holder = balances token holder :=
  if_pos hmem

/-! ## Tallies -/

structure Tally where
  states : JobId → Option JobState
  /-- Keeper records and recent averages, the caller's as they were stored before the call. -/
  keepers : Address → Option Keeper × KeeperRecent
  own : Keeper
  ownMisses : ℕ
  keeperFees : ℤ
  protocolFees : ℤ
  balances : Balances

/-- What a run adds. -/
structure TallyEntry where
  id : JobId
  state : JobState
  charged : Option Address
  lateness : ℕ
  keeperFee : ℤ
  protocolFee : ℤ

/-- What a job's turn comes to: the tokens moved, and the run if there was one. -/
structure Effect where
  moved : Balances
  run : Option TallyEntry

/-- A keeper's record and averages after it missed a window. -/
def withMiss : Option Keeper × KeeperRecent → Option Keeper × KeeperRecent
  | (none, recent) => (none, recent)
  | (some info, recent) =>
      (some { info with missed := satAdd32 info.missed 1 },
        { recent with misses := smooth recent.misses maxBpsScale })

namespace Tally

def enter (t : Tally) (entry : TallyEntry) : Tally where
  states := Function.update t.states entry.id (some entry.state)
  keepers who := if entry.charged = some who then withMiss (t.keepers who) else t.keepers who
  own := { t.own with
    executions := satAdd32 t.own.executions 1
    totalLateness := satAdd64 t.own.totalLateness entry.lateness }
  ownMisses := smooth t.ownMisses 0
  keeperFees := t.keeperFees + entry.keeperFee
  protocolFees := t.protocolFees + entry.protocolFee
  balances := t.balances

def add (t : Tally) (effect : Effect) : Tally :=
  let t := { t with balances := t.balances + effect.moved }
  effect.run.elim t t.enter

theorem enter_comm (t : Tally) {first second : TallyEntry} (hne : first.id ≠ second.id) :
    (t.enter first).enter second = (t.enter second).enter first := by
  have hstates := Function.update_comm hne (some first.state) (some second.state) t.states
  have hkeepers : ((t.enter first).enter second).keepers =
      ((t.enter second).enter first).keepers := by
    funext who
    simp only [enter]
    by_cases hfirst : first.charged = some who
    · simp only [hfirst, if_true]
      split <;> rfl
    · simp only [hfirst, if_false]
  have hlateness : satAdd64 (satAdd64 t.own.totalLateness first.lateness) second.lateness =
      satAdd64 (satAdd64 t.own.totalLateness second.lateness) first.lateness :=
        satAdd_right_comm _ _ _
  unfold enter at hkeepers ⊢
  dsimp only at hkeepers ⊢
  rw [hstates, hkeepers, hlateness, Int.add_right_comm t.keeperFees,
    Int.add_right_comm t.protocolFees]

/-- Turns of different jobs commute. -/
theorem add_comm (t : Tally) {first second : Effect}
    (hne : ∀ entry ∈ first.run, ∀ entry' ∈ second.run, entry.id ≠ entry'.id) :
    (t.add first).add second = (t.add second).add first := by
  obtain ⟨moved, run⟩ := first
  obtain ⟨moved', run'⟩ := second
  have hmoved : t.balances + moved + moved' = t.balances + moved' + moved := add_right_comm _ _ _
  cases run with
  | none =>
      cases run' with
      | none => simp only [add, Option.elim_none, hmoved]
      | some entry' => simp only [add, Option.elim_none, Option.elim_some, enter, hmoved]
  | some entry =>
      cases run' with
      | none => simp only [add, Option.elim_none, Option.elim_some, enter, hmoved]
      | some entry' =>
          have hcomm := enter_comm { t with balances := t.balances + moved' + moved }
            (hne entry rfl entry' rfl)
          simp only [add, Option.elim_some, enter, hmoved] at hcomm ⊢
          exact hcomm

/-- A list of turns comes to the same in any order. -/
theorem foldl_perm {effect : JobId → Effect} {ids ids' : List JobId} (hperm : ids.Perm ids')
    (hown : ∀ id ∈ ids, ∀ entry ∈ (effect id).run, entry.id = id) (t : Tally) :
    ids.foldl (fun t id => t.add (effect id)) t = ids'.foldl (fun t id => t.add (effect id)) t := by
  refine hperm.foldl_eq' ?_ t
  intro first hfirst second hsecond t
  by_cases heq : first = second
  · rw [heq]
  · refine add_comm t ?_
    intro entry hentry entry' hentry'
    rw [hown first hfirst entry hentry, hown second hsecond entry' hentry']
    exact heq

end Tally

/-! ## The tally of a call -/

def Batch.tally (holders : List Address) (b : Batch World) : Tally where
  states := b.chain.reg.jobs.states.get
  keepers who := (b.chain.reg.keepers.infos.get who, b.chain.reg.keepers.getKeeperRecent who)
  own := b.record.info
  ownMisses := b.record.recent.misses
  keeperFees := b.payout.keeperFees
  protocolFees := b.payout.protocolFees
  balances := only holders b.chain.balances

def Receipt.entry (r : Receipt World) (reg : Registry) (jobId : JobId) (now : Timestamp) :
    TallyEntry where
  id := jobId
  state := r.state reg.config
  charged := r.charged reg jobId now
  lateness := now - r.admission.state.nextRun
  keeperFee := r.keeperFee
  protocolFee := r.protocolFee

theorem asked_tally (b : Batch World) (spec : JobSpec) :
    (b.asked host jobId spec).tally holders = (b.tally holders).add
      { moved := only holders (resolverAllows host b.chain.toSurroundings jobId spec).moved
        run := none } := by
  simp only [Batch.tally, Batch.asked, Chain.afterCall, Tally.add, Option.elim_none, only_add]

theorem noteMiss_withMiss (keepers : KeeperTable) (missed who : Address) :
    ((keepers.noteMiss missed).infos.get who, (keepers.noteMiss missed).getKeeperRecent who) =
      if some missed = some who then withMiss (keepers.infos.get who, keepers.getKeeperRecent who)
      else (keepers.infos.get who, keepers.getKeeperRecent who) := by
  rw [noteMiss_infos, noteMiss_recents]
  by_cases heq : who = missed
  · subst heq
    cases hinfo : keepers.infos.get who with
    | none => simp [withMiss]
    | some info => simp [withMiss]
  · have hne : ¬ some missed = some who := fun h => heq (Option.some.inj h).symm
    rw [if_neg heq, if_neg hne, if_neg fun h => heq h.1]

/-- A run adds its entry to the tally. -/
theorem Ran.tally {r : Receipt World} (h : Ran host executor keeper jobId b b' r) :
    b'.tally holders = (b.tally holders).add
      { moved := only holders
          ((resolverAllows host b.chain.toSurroundings jobId r.admission.spec).moved + r.call.moved)
        run := some (r.entry b.chain.reg jobId b.chain.now) } := by
  have hstates : b'.chain.reg.jobs.states.get =
      Function.update b.chain.reg.jobs.states.get jobId (some (r.state b.chain.reg.config)) := by
    funext id
    rw [h.reg, Receipt.regAfter]
    by_cases heq : id = jobId
    · rw [heq, Function.update_self]
      exact Store.get_set_self _ _ _
    · rw [Function.update_of_ne heq]
      exact Store.get_set_of_ne _ _ heq
  have hkeepers :
      ∀ who, (b'.chain.reg.keepers.infos.get who, b'.chain.reg.keepers.getKeeperRecent who) =
      if r.charged b.chain.reg jobId b.chain.now = some who then
        withMiss (b.chain.reg.keepers.infos.get who, b.chain.reg.keepers.getKeeperRecent who)
      else (b.chain.reg.keepers.infos.get who, b.chain.reg.keepers.getKeeperRecent who) := by
    intro who
    rw [h.reg, Receipt.regAfter]
    cases r.charged b.chain.reg jobId b.chain.now with
    | none => rfl
    | some missed => exact noteMiss_withMiss _ missed who
  have hbalances : only holders b'.chain.balances = only holders b.chain.balances + only holders
      ((resolverAllows host b.chain.toSurroundings jobId r.admission.spec).moved +
        r.call.moved) := by
    rw [h.balances, ← only_add, add_assoc]
  unfold Batch.tally Tally.add
  dsimp only [Option.elim_some, Tally.enter, Receipt.entry]
  simp only [hstates, hkeepers, hbalances, h.record, h.payout.1, h.payout.2, KeeperRecord.credit]

end SoroCron
