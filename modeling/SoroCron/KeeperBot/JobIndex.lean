import Mathlib.Data.List.Sort
import SoroCron.Foundation.Listing
import SoroCron.Registry.System
import SoroCron.Registry.Views

/-! # The job index of the TypeScript keeper

The index reads every live job once and then follows the registry's events. Each of its calls
is answered from the chain as it is at that moment, and anything can happen to the chain
between two answers.
-/

namespace SoroCron.KeeperBot

variable {World : Type}

/-! ## Jobs -/

/-- What the keeper tracks per job. -/
structure IndexedJob where
  id : JobId
  nextRun : Timestamp
  active : Bool
  balance : ℤ
  feePerRun : ℤ
  maxRuns : ℕ
  runs : ℕ
  endAt : Timestamp
  deriving DecidableEq

def toIndexed (job : Job) : IndexedJob where
  id := job.id
  nextRun := job.nextRun
  active := job.active
  balance := job.balance
  feePerRun := job.feePerRun
  maxRuns := job.maxRuns
  runs := job.runs
  endAt := job.endAt

/-- The gates of `ensureDue`, in its order. -/
def mightBeDue (job : IndexedJob) (now : Timestamp) : Bool :=
  job.active && (job.maxRuns = 0 || job.runs < job.maxRuns) && (job.endAt = 0 || now < job.endAt) &&
    job.feePerRun ≤ job.balance && job.nextRun ≤ now

/-! ## Pages of events -/

/-- An event with its place in the log. -/
structure RegistryEvent where
  id : ℕ
  event : Event

structure EventPage where
  events : List RegistryEvent
  /-- The place after the last event, if the server or the page tells it. -/
  cursor : Option ℕ

/-- What the server decides about a page: how many events fit on it, and whether it sends a
cursor with an empty one. -/
structure Reply where
  count : ℕ
  hasCursor : Bool

/-- Where the events of `ledger` and later ones begin; a ledger is known by its time. -/
def firstOf (log : List (Timestamp × Event)) (ledger : Timestamp) : ℕ :=
  (log.takeWhile fun entry => entry.1 < ledger).length

/-- What `fetchEvents` makes of a page: at most `limit` events from `start` on. -/
def eventPage (log : List (Timestamp × Event)) (start limit : ℕ) (reply : Reply) : EventPage :=
  let events := (((log.drop start).take (min reply.count limit)).zipIdx start).map
    fun (entry, id) => { id, event := entry.2 }
  { events
    cursor := if events.length = 0 ∧ reply.hasCursor = false then none
      else some (start + events.length) }

/-! ## State -/

/-- Jobs per `getJobs` call. -/
def page : ℕ := 50

/-- Events per page that `sync` asks for. -/
def eventLimit : ℕ := 500

/-- What the method under way waits for. -/
inductive Pending where
  | idle
  | latestLedger
  | jobCount (latest : Timestamp)
  | getJobs (latest : Timestamp) (count start : ℕ) (jobs : Listing JobId IndexedJob)
  | firstEvent (latest : Timestamp)
  | nextPage
  | applying (events : List RegistryEvent) (cursor : Option ℕ) (short : Bool)

structure JobIndex where
  jobs : Listing JobId IndexedJob := ∅
  cursor : Option ℕ := none
  /-- Set when the server returned no cursor yet: resume from this ledger. -/
  pendingStart : Option Timestamp := none
  syncs : ℕ := 0
  resyncEvery : ℕ := 360
  pending : Pending := .idle

/-! ## Events -/

/-- The job an event tells the index something about. -/
def tracked : Event → Option JobId
  | .jobCreated id .. | .jobUpdated id .. | .jobCancelled id _ | .jobExecuted id ..
  | .jobFunded id .. | .jobWithdrawn id .. | .jobExhausted id _ | .jobActiveSet id _
  | .jobDeactivated id _ => some id
  | _ => none

/-- Whether the index reads the job again on this event. -/
def asks : Event → Bool
  | .jobCreated .. | .jobUpdated .. => true
  | _ => false

/-- The index after one event; `getJob` answers as the chain is now. -/
def applyEvent (getJob : JobId → Option Job) (jobs : Listing JobId IndexedJob) :
    Event → Listing JobId IndexedJob
  | .jobCreated id .. | .jobUpdated id .. =>
      match getJob id with
      -- The job as it is now, which later events may describe again.
      | some fresh => jobs.set id (toIndexed fresh)
      -- Cancelled since: its own event is still to come.
      | none => jobs
  | .jobCancelled id _ => jobs.erase id
  | .jobExecuted id _ _ fee _ run nextRun _ _ _ =>
      jobs.alter id fun job => { job with nextRun, runs := run, balance := job.balance - fee }
  | .jobFunded id _ _ balance | .jobWithdrawn id _ balance | .jobExhausted id balance =>
      jobs.alter id fun job => { job with balance }
  | .jobActiveSet id active => jobs.alter id fun job => { job with active }
  | .jobDeactivated id _ => jobs.alter id fun job => { job with active := false }
  | _ => jobs

/-! ## Methods -/

namespace JobIndex

/-- Where the next page begins. -/
def position (index : JobIndex) (log : List (Timestamp × Event)) : Option ℕ :=
  match index.cursor with
  | some cursor => some cursor
  | none => index.pendingStart.map (firstOf log)

def load (index : JobIndex) : JobIndex := { index with pending := .latestLedger }

def sync (index : JobIndex) : JobIndex :=
  let index := { index with syncs := index.syncs + 1 }
  if index.syncs % index.resyncEvery = 0 then index.load else { index with pending := .nextPage }

/-- The next round of the loop over all ids, or what follows it. -/
def list (index : JobIndex) (latest : Timestamp) (count start : ℕ)
    (jobs : Listing JobId IndexedJob) : JobIndex :=
  if start < count then
    { index with pending := .getJobs latest count start jobs }
  else
    { index with jobs, pending := .firstEvent latest }

/-- Goes on with the answer of `c` to the pending call, or with the next event. -/
def answered (index : JobIndex) (c : Chain World) (reply : Reply) : JobIndex :=
  match index.pending with
  | .idle => index
  | .latestLedger => { index with pending := .jobCount c.now }
  | .jobCount latest => index.list latest c.reg.jobs.jobCount 0 ∅
  | .getJobs latest count start jobs =>
      index.list latest count (start + page)
        ((c.reg.jobs.getJobs start page).foldl
          (fun jobs job => jobs.set job.id (toIndexed job)) jobs)
  | .firstEvent latest =>
      -- One event is asked for and not applied: the cursor is all that is kept of it.
      let found := eventPage c.log (firstOf c.log latest) 1 reply
      { index with
        cursor := found.cursor
        pendingStart := if found.cursor.isSome then none else some latest
        pending := .idle }
  | .nextPage =>
      match index.position c.log with
      | none => index
      | some start =>
          let found := eventPage c.log start eventLimit reply
          { index with
            pending := .applying found.events found.cursor (found.events.length < eventLimit) }
  | .applying (event :: rest) cursor short =>
      { index with
        jobs := applyEvent c.reg.jobs.getJob index.jobs event.event
        pending := .applying rest cursor short }
  | .applying [] cursor short =>
      { index with
        cursor := if cursor.isSome then cursor else index.cursor
        pendingStart := if cursor.isSome then none else index.pendingStart
        -- Only a full page is followed by another.
        pending := if short then .idle else .nextPage }

/-- The pending call throws: `sync` falls back to `load`, and `load` gives up. -/
def failed (index : JobIndex) : JobIndex :=
  match index.pending with
  | .idle => index
  | .latestLedger | .jobCount _ | .getJobs .. | .firstEvent _ => { index with pending := .idle }
  | .nextPage => index.load
  -- Other events ask the server nothing.
  | .applying (event :: _) _ _ => if asks event.event then index.load else index
  | .applying [] _ _ => index

/-- Jobs that might be due at `now`, earliest first. -/
def due (index : JobIndex) (now : Timestamp) : List IndexedJob :=
  (index.jobs.values.filter fun job => mightBeDue job now).insertionSort fun a b =>
    a.nextRun ≤ b.nextRun

end JobIndex

/-! ## The index beside the registry -/

/-- The registry with a keeper's index. The last three fields only record what happened. -/
structure Watched (World : Type) where
  chain : Chain World
  index : JobIndex
  /-- Nobody called the registry since the first answer to the load under way, or since the last
  page of the sync. -/
  quiet : Bool := false
  /-- How long the log was when each job was read by the load under way. -/
  read : JobId → ℕ := fun _ => 0
  /-- How many events of the log the balance in each job's entry accounts for. -/
  held : JobId → ℕ := fun _ => 0

inductive WatchAction (World : Type) where
  | registry (action : Action World)
  | load
  | sync
  | answered (reply : Reply)
  | failed

namespace Watched

def quietAfter (w : Watched World) : Bool :=
  match w.index.pending with
  | .latestLedger | .nextPage => true
  | _ => w.quiet

def readAfter (w : Watched World) : JobId → ℕ :=
  match w.index.pending with
  | .jobCount _ => fun _ => w.chain.log.length
  | .getJobs _ _ start _ => fun id =>
      if start ≤ id ∧ id < start + page then w.chain.log.length else w.read id
  | _ => w.read

/-- What the balance of an entry accounts for once `event` was applied to it. -/
def heldSince (w : Watched World) (event : RegistryEvent) : ℕ → ℕ :=
  match event.event with
  | .jobCreated id .. | .jobUpdated id .. => fun held =>
      if (w.chain.reg.jobs.getJob id).isSome then w.chain.log.length else held
  | .jobExecuted .. | .jobFunded .. | .jobWithdrawn .. | .jobExhausted .. => fun _ => event.id + 1
  | _ => fun held => held

def heldAfter (w : Watched World) (reply : Reply) : JobId → ℕ :=
  match w.index.pending with
  | .applying (event :: _) _ _ => fun id =>
      if tracked event.event = some id then w.heldSince event (w.held id) else w.held id
  | _ =>
      match (w.index.answered w.chain reply).pending with
      | .firstEvent _ => w.readAfter
      | _ => w.held

end Watched

/-- Whether an action asks the registry to do something. -/
def isCall : Action World → Bool
  | .call .. => true
  | _ => false

/-- `load` and `sync` are awaited, so neither begins while the other is under way. -/
def Watched.begin (w : Watched World) (index : JobIndex) : Watched World :=
  match w.index.pending with
  | .idle => { w with index, quiet := false }
  | _ => w

def watch (host : Host World) (w : Watched World) : WatchAction World → Watched World
  | .registry action => { w with
      chain := step host w.chain action, quiet := w.quiet && !isCall action }
  | .load => w.begin w.index.load
  | .sync => w.begin w.index.sync
  | .answered reply =>
      { w with
        index := w.index.answered w.chain reply
        quiet := w.quietAfter
        read := w.readAfter
        held := w.heldAfter reply }
  | .failed =>
      { w with
        index := w.index.failed
        quiet := match w.index.failed.pending with
          | .idle => false
          | _ => w.quiet }

def watching (host : Host World) : Machine (Watched World) (WatchAction World) Unit where
  step := watch host
  out _ _ := []

/-- Syncs follow a load that told where to go on. -/
def Allowed (host : Host World) (w : Watched World) : WatchAction World → Prop
  | .registry action => Admissible host w.chain action
  | .sync => (w.index.position w.chain.log).isSome
  | _ => True

/-- A new index on a chain. -/
def Watched.new (c : Chain World) (resyncEvery : ℕ) : Watched World where
  chain := c
  index := { resyncEvery }

end SoroCron.KeeperBot
