import SoroCron.Foundation.Listing
import SoroCron.Registry.Views
import SoroCron.Sdk.Events

/-! # Offered jobs

How the SDK finds the jobs that are offered to an address: it reads one page of proposals from
the RPC server, keeps the newest one per job, and asks the registry whether each is still
pending.
-/

namespace SoroCron.Sdk

variable {World : Type}

/-! ## The RPC server -/

structure EventServer extends LedgerClock where
  /-- The earliest ledger whose events it still has. -/
  earliest : ℕ
  /-- Most events it puts on a page. -/
  count : ℕ

namespace EventServer

def rangeAt (server : EventServer) (c : Chain World) : LedgerRange :=
  server.range c.now server.earliest

/-- What was published from the ledger `startLedger` on, oldest first. -/
def eventsFrom (server : EventServer) (log : List (Timestamp × Event)) (startLedger : ℕ) :
    List Event :=
  (log.filter fun entry => startLedger ≤ server.ledgerOf entry.1).map Prod.snd

/-- The first events from `startLedger` on that have the topics asked for. -/
def getEvents (server : EventServer) (c : Chain World) (topics : Event → Bool)
    (startLedger limit : ℕ) : Except LedgerRange (List Event) :=
  (server.rangeAt c).serve startLedger
    (((server.eventsFrom c.log startLedger).filter topics).take (min server.count limit))

end EventServer

/-! ## Reading events -/

/-- A page of events; a start that the server no longer has moves to what it has. -/
def fetchEvents (server : EventServer) (c : Chain World) (topics : Event → Bool)
    (startLedger limit : ℕ) : Except LedgerRange (List Event) :=
  match server.getEvents c topics startLedger limit with
  | .ok events => .ok events
  | .error range =>
      match retryFrom startLedger range with
      | some later => server.getEvents c topics later limit
      | none => .error range

/-- Whom the job is offered to, in the event of a proposal. -/
def offer : Event → Option (JobId × Address)
  | .jobOwnerProposed id _ proposed => some (id, proposed)
  | _ => none

/-- The jobs whose newest offer among the events names `address`. -/
def offersTo (events : List Event) (address : Address) : List JobId :=
  let latest := Listing.ofPairs (events.filterMap offer)
  (latest.entries.filter fun entry => entry.2 = address).map Prod.fst

/-- Offers that `handoversTo` asks for. -/
def offerLimit : ℕ := 1000

/-- About a week of ledgers back. -/
def weekBefore (latest : ℕ) : ℕ := max 1 (latest - 7 * 17280)

/-- The jobs offered to `address` that it has not accepted yet. -/
def handoversTo (server : EventServer) (c : Chain World) (address : Address) :
    Except LedgerRange (List JobId) := do
  let latest := server.ledgerOf c.now
  let page ← fetchEvents server c (fun event => (offer event).isSome) (weekBefore latest) offerLimit
  return (offersTo page address).filter fun id => c.reg.jobs.pendingJobOwner id = some address

/-! ## What is searched -/

namespace EventServer

variable (server : EventServer) (c : Chain World)

/-- Where a search from `startLedger` on really begins. -/
def clamp (startLedger : ℕ) : ℕ :=
  if startLedger < server.earliest then server.earliest + retentionMargin else startLedger

/-- The first ledger of the window that `handoversTo` searches. -/
def firstLedger : ℕ := server.clamp (weekBefore (server.ledgerOf c.now))

/-- All offers in the searched window, oldest first. -/
def window : List (JobId × Address) :=
  (server.eventsFrom c.log (server.firstLedger c)).filterMap offer

/-- The offers that the server returns. -/
def firstPage : List (JobId × Address) := (server.window c).take (min server.count offerLimit)

end EventServer

variable {server : EventServer} {c : Chain World} {address : Address} {id : JobId}

theorem fetchEvents_eq (server : EventServer) (c : Chain World) (topics : Event → Bool)
    (startLedger limit : ℕ) : fetchEvents server c topics startLedger limit =
      server.getEvents c topics (server.clamp startLedger) limit := by
  have hrange : ∀ range, server.getEvents c topics startLedger limit = .error range →
      range.earliest = server.earliest := by
    intro range hanswer
    rw [EventServer.getEvents, LedgerRange.serve] at hanswer
    split at hanswer
    · cases hanswer
    · cases hanswer
      rfl
  unfold EventServer.clamp
  split
  next hearly =>
    have herror : server.getEvents c topics startLedger limit = .error (server.rangeAt c) :=
      if_neg fun hin => absurd hin.1 (Nat.not_le.mpr hearly)
    have hlost : ¬(server.rangeAt c).earliest ≤ startLedger := Nat.not_le.mpr hearly
    rw [fetchEvents, herror]
    dsimp only
    rw [retryFrom_eq, if_neg hlost]
    rfl
  next hkept =>
    rw [fetchEvents]
    cases hanswer : server.getEvents c topics startLedger limit with
    | ok events => rfl
    | error range =>
        -- The server still has the start, so that the error is about its latest ledger.
        dsimp only
        rw [retryFrom_eq, if_pos (hrange range hanswer ▸ Nat.not_lt.mp hkept)]

/-- What a page of proposals offers is what is offered on a page. -/
theorem offers_take (events : List Event) (limit : ℕ) :
    ((events.filter fun event => (offer event).isSome).take limit).filterMap offer =
      (events.filterMap offer).take limit := by
  induction events generalizing limit with
  | nil => simp
  | cons event rest ih =>
      cases hoffer : offer event with
      | none =>
          rw [List.filter_cons_of_neg (by simp [hoffer]), List.filterMap_cons_none hoffer]
          exact ih limit
      | some pair =>
          rw [List.filter_cons_of_pos (by simp [hoffer]), List.filterMap_cons_some hoffer]
          cases limit with
          | zero => rfl
          | succ limit =>
              rw [List.take_succ_cons, List.take_succ_cons, List.filterMap_cons_some hoffer,
                ih limit]

theorem mem_offersTo {events : List Event} :
    id ∈ offersTo events address ↔ Listing.LastSaid (events.filterMap offer) id address := by
  rw [← Listing.get_ofPairs, Listing.get_eq_some]
  simp only [offersTo, List.mem_map, List.mem_filter, Prod.exists, decide_eq_true_eq,
    exists_and_right, exists_eq_right]

theorem offersTo_nodup (events : List Event) (address : Address) :
    (offersTo events address).Nodup :=
  (Listing.ofPairs (events.filterMap offer)).distinct.sublist (List.filter_sublist.map Prod.fst)

/-- What is found in a window that the server has: the jobs whose newest offer on the first
page names the address, as far as they are still pending for it. -/
theorem handoversTo_eq_ok (hserved : server.firstLedger c ≤ server.ledgerOf c.now)
    (address : Address) : ∃ ids, handoversTo server c address = .ok ids ∧ ids.Nodup ∧
      ∀ id, id ∈ ids ↔
        Listing.LastSaid (server.firstPage c) id address ∧ c.reg.jobs.pendingJobOwner id =
          some address := by
  have hstart : server.earliest ≤ server.firstLedger c := by
    unfold EventServer.firstLedger EventServer.clamp
    split
    · exact Nat.le_add_right _ _
    next hkept => exact Nat.not_lt.mp hkept
  have hpage := fetchEvents_eq server c (fun event => (offer event).isSome)
    (weekBefore (server.ledgerOf c.now)) offerLimit
  have hcovers : (server.rangeAt c).Covers (server.clamp (weekBefore (server.ledgerOf c.now))) :=
    ⟨hstart, hserved⟩
  rw [EventServer.getEvents, LedgerRange.serve, if_pos hcovers] at hpage
  refine ⟨_, by rw [handoversTo, hpage]; rfl, (offersTo_nodup _ address).filter _, ?_⟩
  intro id
  rw [List.mem_filter, mem_offersTo, offers_take, decide_eq_true_eq]
  rfl

end SoroCron.Sdk
