import SoroCron.KeeperBot.Watching

/-! # Following one job

The command line prints the events of a job as they land, page by page, until it is stopped or the
job is cancelled. Where the server no longer has the ledger to begin at, the watch begins a little
after the earliest one it has.
-/

namespace SoroCron.KeeperBot

variable {World : Type}

/-- The job an event is about. -/
def concerns : Event → Option JobId
  | .jobCreated id .. | .jobFunded id .. | .jobExecuted id .. | .jobDeactivated id _
  | .keeperMissedWindow _ id _ | .jobExhausted id _ | .jobCancelled id _ | .jobWithdrawn id ..
  | .jobActiveSet id _ | .jobUpdated id .. | .jobOwnerProposed id ..
  | .jobOwnerChanged id .. => some id
  | _ => none

def isJobEvent (event : RegistryEvent) (jobId : JobId) : Bool := concerns event.event = some jobId

def isCancellation : Event → Bool
  | .jobCancelled .. => true
  | _ => false

inductive WatchPhase where
  /-- Asks for the latest ledger, to begin there. -/
  | starting
  /-- Between two pages, about to see whether to stop. -/
  | pausing
  | reading
  /-- The server did not have the ledger asked for; asks it for another one. -/
  | retrying (startLedger : ℕ)
  /-- The job was cancelled. -/
  | returned
  | stopped
  | threw
  deriving DecidableEq

structure JobWatch where
  jobId : JobId
  start : ℕ := 0
  cursor : Option ℕ := none
  printed : List RegistryEvent := []
  phase : WatchPhase

/-- Events per page that `eventPage` asks for by itself. -/
def watchLimit : ℕ := 1000

/-- The events of a page that are printed, and whether the job's cancellation is one of them. -/
def printable (jobId : JobId) : List RegistryEvent → List RegistryEvent × Bool
  | [] => ([], false)
  | event :: rest =>
      if isJobEvent event jobId = false then
        printable jobId rest
      else if isCancellation event.event = true then
        ([event], true)
      else
        let (more, ended) := printable jobId rest
        (event :: more, ended)

namespace JobWatch

variable (clock : Sdk.LedgerClock) (watch : JobWatch)

def new (jobId : JobId) (fromLedger : Option ℕ) : JobWatch :=
  match fromLedger with
  | some start => { jobId, start, phase := .pausing }
  | none => { jobId, phase := .starting }

/-- The ledger that a page is asked from, while there is no cursor. -/
def startLedger : ℕ :=
  match watch.phase with
  | .retrying startLedger => startLedger
  | _ => watch.start

/-- Where the next page begins. -/
def position (log : List (Timestamp × Event)) : ℕ :=
  watch.cursor.getD (clock.firstOf log watch.startLedger)

/-- What a server with the ledgers of `range` answers when asked for the next page. -/
def getEvents (log : List (Timestamp × Event)) (range : Sdk.LedgerRange) (reply : Reply) :
    Except Sdk.LedgerRange EventPage :=
  match watch.cursor with
  | some place => .ok (eventPage log place watchLimit reply)
  | none =>
      range.serve watch.startLedger
        (eventPage log (clock.firstOf log watch.startLedger) watchLimit reply)

/-- Prints what a page has about the job, and sees where to go on. -/
def took (latest : ℕ) (found : EventPage) : JobWatch :=
  if (printable watch.jobId found.events).2 = true then
    { watch with
      printed := watch.printed ++ (printable watch.jobId found.events).1, phase := .returned }
  else
    { watch with
      printed := watch.printed ++ (printable watch.jobId found.events).1
      cursor := found.cursor <|> watch.cursor
      start := if (found.cursor <|> watch.cursor) = none then max watch.start latest
        else watch.start
      phase := .pausing }

/-- Goes on with the answer to the call under way, of a server with the ledgers of `range`. -/
def answered (log : List (Timestamp × Event)) (range : Sdk.LedgerRange) (reply : Reply) :
    JobWatch :=
  match watch.phase with
  | .starting => { watch with start := range.latest, phase := .pausing }
  | .reading =>
      match watch.getEvents clock log range reply with
      | .ok found => watch.took range.latest found
      | .error range =>
          match Sdk.retryFrom watch.start range with
          | some later => { watch with phase := .retrying later }
          | none => { watch with phase := .threw }
  | .retrying _ =>
      match watch.getEvents clock log range reply with
      | .ok found => watch.took range.latest found
      | .error _ => { watch with phase := .threw }
  | _ => watch

/-- After the pause the loop reads on, unless it was stopped. -/
def resumed (stopped : Bool) : JobWatch :=
  match watch.phase with
  | .pausing => { watch with phase := if stopped = true then .stopped else .reading }
  | _ => watch

/-- The call under way throws. -/
def failed : JobWatch :=
  match watch.phase with
  | .starting | .reading | .retrying _ => { watch with phase := .threw }
  | _ => watch

end JobWatch

/-! ## Beside the registry -/

structure WatchedJob (World : Type) where
  chain : Chain World
  watch : JobWatch

/-- Everybody's steps. Every answer comes from a server with the events from some ledger on. -/
inductive JobWatchAction (World : Type) where
  | registry (action : Action World)
  | answered (earliest : ℕ) (reply : Reply)
  | resumed (stopped : Bool)
  | failed

variable (host : Host World) (clock : Sdk.LedgerClock)

/-- An empty page without a cursor says that nothing was found up to the latest ledger. -/
def Searched (w : WatchedJob World) : JobWatchAction World → Prop
  | .registry action => Admissible host w.chain action
  | .answered _ reply =>
      reply.hasCursor = true ∨ reply.count ≠ 0 ∨
        w.watch.position clock w.chain.log = w.chain.log.length
  | _ => True

end SoroCron.KeeperBot
