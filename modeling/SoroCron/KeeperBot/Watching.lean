import SoroCron.KeeperBot.Knowing
import SoroCron.Sdk.Events

/-! # The index along a run

What the index knows between any two answers: of every job as much as it heard, and during a
load as much as it has read. Whatever the registry does in between is told by the events that
are still to come.
-/

namespace SoroCron.KeeperBot

open Bounded

variable {World : Type} {host : Host World} {c : Chain World} {action : Action World}
  {log more : List (Timestamp × Event)}

/-! ## The registry -/

/-- Everything published so far. -/
def published (c : Chain World) : List Event := c.log.map Prod.snd

/-- What holds of the log and the jobs, and is kept by all news, is kept by every step. -/
theorem step_news {J : List Event → JobTable → Prop}
    (hnews : ∀ events new jobs jobs', (∀ id, News id new (standing jobs id) (standing jobs' id)) →
      J events jobs → J (events ++ new) jobs')
    (hreach : Reachable host c) (hadm : Admissible host c action) (h : J (published c) c.reg.jobs) :
    J (published (step host c action)) (step host c action).reg.jobs := by
  obtain ⟨notices, ⟨hlife, hlog⟩, -⟩ := hreach.tells action hadm
  have hissued : Issued c.reg.jobs := by
    intro id state hstate
    exact hreach.sound.jobs.issued id (JobTable.mem_states_keys hstate)
  have hlast := hlife.history
    (J := fun past p => Issued p.jobs ∧ J (published c ++ past.flatMap Notice.events) p.jobs) ?_ []
    ⟨hissued, (List.append_nil _).symm ▸ h⟩
  · rw [published, hlog.events]
    exact hlast.2
  · rintro past notice before after ⟨hissued, hpast⟩ htold
    refine ⟨issued_of_told htold hissued, ?_⟩
    rw [List.flatMap_append, List.flatMap_singleton, ← List.append_assoc]
    exact hnews _ _ _ _ (fun id => news_of_told htold hissued id) hpast

/-- Only calls change the jobs or the log. -/
theorem step_quiet (hcall : isCall action = false) :
    (step host c action).log = c.log ∧ (step host c action).reg.jobs = c.reg.jobs := by
  cases action with
  | call ctx call => cases hcall
  | _ => exact ⟨rfl, rfl⟩

theorem firstOf_le (log : List (Timestamp × Event)) (ledger : Timestamp) :
    firstOf log ledger ≤ log.length :=
  Sdk.LedgerClock.firstOf_le ⟨id, monotone_id⟩ log ledger

/-- A ledger's first event stays where it is. -/
theorem firstOf_append {ledger : Timestamp} (hmore : ∀ entry ∈ more, ledger ≤ entry.1) :
    firstOf (log ++ more) ledger = firstOf log ledger :=
  @Sdk.LedgerClock.firstOf_append ⟨id, monotone_id⟩ _ _ _ hmore

/-- The log grows at its end, by events of the present. -/
theorem step_log (hreach : Reachable host c) (hadm : Admissible host c action) :
    ∃ more, (step host c action).log = c.log ++ more ∧ ∀ entry ∈ more, entry.1 = c.now := by
  obtain ⟨notices, ⟨-, hlog⟩, -⟩ := hreach.tells action hadm
  refine ⟨_, hlog, ?_⟩
  intro entry hentry
  obtain ⟨event, -, rfl⟩ := List.mem_map.mp hentry
  rfl

/-! ## Pages -/

theorem eventPage_length (log : List (Timestamp × Event)) (start limit : ℕ) (reply : Reply) :
    (eventPage log start limit reply).events.length =
      min (min reply.count limit) (log.length - start) := by
  simp [eventPage]

theorem eventPage_get {start limit place : ℕ} {reply : Reply} {event : RegistryEvent}
    (h : (eventPage log start limit reply).events[place]? = some event) :
    event.id = start + place ∧ (log.map Prod.snd)[start + place]? = some event.event := by
  simp only [eventPage, List.getElem?_map, Option.map_eq_some_iff] at h
  obtain ⟨⟨entry, id⟩, hentry, rfl⟩ := h
  rw [List.getElem?_zipIdx, Option.map_eq_some_iff] at hentry
  obtain ⟨found, hfound, hpair⟩ := hentry
  cases hpair
  refine ⟨rfl, ?_⟩
  rw [List.getElem?_take, List.getElem?_drop] at hfound
  split at hfound
  · rw [List.getElem?_map, hfound]
    rfl
  · cases hfound

/-! ## What the index knows -/

/-- Every entry is known up to `place`. -/
def Knows (w : Watched World) (place : ℕ) : Prop :=
  ∀ id, Known id (published w.chain) place (w.held id) (w.index.jobs.get id)
    (standing w.chain.reg.jobs id)

/-- Every entry is known up to where the next page begins. -/
def KnowsPosition (w : Watched World) : Prop :=
  ∀ place ∈ w.index.position w.chain.log, Knows w place

/-- A load that has read the jobs in `Done`. -/
structure Snapshot (w : Watched World) (latest : Timestamp) (Done : JobId → Prop)
    (jobs : Listing JobId IndexedJob) : Prop where
  latest_le : latest ≤ w.chain.now
  since : ∀ id, firstOf w.chain.log latest ≤ w.read id
  ahead : ∀ place ∈ w.index.position w.chain.log, ∀ id, place ≤ w.read id
  quiet : w.quiet = true → ∀ id, w.read id = w.chain.log.length
  known : ∀ id, Done id →
    Known id (published w.chain) (w.read id) (w.read id) (jobs.get id)
      (standing w.chain.reg.jobs id)

/-- The rest of a page that began at `start`, from `place` on. -/
structure Page (w : Watched World) (rest : List RegistryEvent) (cursor : Option ℕ) (short : Bool)
    (start place : ℕ) : Prop where
  position : w.index.position w.chain.log = some start
  ahead : start ≤ place
  knows : Knows w place
  events : ∀ i event, rest[i]? = some event →
    event.id = place + i ∧ (published w.chain)[place + i]? = some event.event
  cursor : cursor = some (place + rest.length) ∨ (cursor = none ∧ rest = [] ∧ place = start)
  last : w.quiet = true → short = true → place + rest.length = w.chain.log.length

/-- What is known of the jobs while the index waits for `pending`. -/
def Followed (w : Watched World) : Pending → Prop
  | .idle => KnowsPosition w ∧ (w.quiet = true → Knows w w.chain.log.length)
  | .latestLedger | .nextPage => KnowsPosition w
  | .jobCount latest => KnowsPosition w ∧ latest ≤ w.chain.now
  | .getJobs latest count start jobs =>
      KnowsPosition w ∧ Snapshot w latest (fun id => id < start ∨ count ≤ id) jobs ∧
        ∀ id, start ≤ id → jobs.get id = none
  | .firstEvent latest => Snapshot w latest (fun _ => True) w.index.jobs ∧ w.held = w.read
  | .applying rest cursor short => ∃ start place, Page w rest cursor short start place

/-- What holds of the index beside its registry, whatever it waits for. -/
structure WatchHolds (host : Host World) (w : Watched World) : Prop where
  reachable : Reachable host w.chain
  truthful : ∀ id, Truthful id (published w.chain) (standing w.chain.reg.jobs id)
  resumes : ∀ ledger ∈ w.index.pendingStart, ledger ≤ w.chain.now
  followed : Followed w w.index.pending

theorem published_length (c : Chain World) : (published c).length = c.log.length :=
  List.length_map _

/-! ## The registry acts -/

section Registry

variable {w : Watched World}

def Watched.acted (host : Host World) (w : Watched World) (action : Action World) : Watched World :=
  { w with chain := step host w.chain action, quiet := w.quiet && !isCall action }

theorem acted_quiet (h : (w.acted host action).quiet = true) :
    w.quiet = true ∧ (step host w.chain action).log = w.chain.log ∧
      (step host w.chain action).reg.jobs = w.chain.reg.jobs := by
  simp only [Watched.acted, Bool.and_eq_true, Bool.not_eq_true'] at h
  exact ⟨h.1, step_quiet h.2⟩

variable (hreach : Reachable host w.chain) (hadm : Admissible host w.chain action)

include hreach hadm

theorem acted_firstOf {ledger : Timestamp} (hledger : ledger ≤ w.chain.now) :
    firstOf (step host w.chain action).log ledger = firstOf w.chain.log ledger := by
  obtain ⟨more, hlog, htimes⟩ := step_log hreach hadm
  rw [hlog]
  apply firstOf_append
  intro entry hentry
  rw [htimes entry hentry]
  exact hledger

theorem acted_position (hresumes : ∀ ledger ∈ w.index.pendingStart, ledger ≤ w.chain.now) :
    w.index.position (step host w.chain action).log = w.index.position w.chain.log := by
  unfold JobIndex.position
  cases w.index.cursor with
  | some cursor => rfl
  | none =>
      cases hpending : w.index.pendingStart with
      | none => rfl
      | some ledger => exact congrArg some (acted_firstOf hreach hadm (hresumes ledger hpending))

theorem acted_known {id : JobId} {place held : ℕ} {kept : Option IndexedJob}
    (h : Known id (published w.chain) place held kept (standing w.chain.reg.jobs id)) :
    Known id (published (step host w.chain action)) place held kept
      (standing (step host w.chain action).reg.jobs id) := by
  refine step_news (J := fun events jobs => Known id events place held kept (standing jobs id)) ?_
    hreach hadm h
  intro events new jobs jobs' hnews hknown
  exact hknown.told (hnews id)

theorem acted_truthful {id : JobId}
    (h : Truthful id (published w.chain) (standing w.chain.reg.jobs id)) :
    Truthful id (published (step host w.chain action))
      (standing (step host w.chain action).reg.jobs id) := by
  refine step_news (J := fun events jobs => Truthful id events (standing jobs id)) ?_ hreach hadm h
  intro events new jobs jobs' hnews htruthful
  exact htruthful.told (hnews id)

theorem acted_knows {place : ℕ} (h : Knows w place) : Knows (w.acted host action) place :=
  fun id => acted_known hreach hadm (h id)

theorem acted_knowsPosition (hresumes : ∀ ledger ∈ w.index.pendingStart, ledger ≤ w.chain.now)
    (h : KnowsPosition w) : KnowsPosition (w.acted host action) := by
  intro place hplace
  change w.index.position (step host w.chain action).log = some place at hplace
  rw [acted_position hreach hadm hresumes] at hplace
  exact acted_knows hreach hadm (h place hplace)

theorem acted_snapshot {latest : Timestamp} {Done : JobId → Prop} {jobs : Listing JobId IndexedJob}
    (hresumes : ∀ ledger ∈ w.index.pendingStart, ledger ≤ w.chain.now)
    (h : Snapshot w latest Done jobs) : Snapshot (w.acted host action) latest Done jobs := by
  refine ⟨h.latest_le.trans (step_now hreach.sound action), ?_, ?_, ?_, ?_⟩
  · intro id
    exact (acted_firstOf hreach hadm h.latest_le).trans_le (h.since id)
  · intro place hplace
    change w.index.position (step host w.chain action).log = some place at hplace
    rw [acted_position hreach hadm hresumes] at hplace
    exact h.ahead place hplace
  · intro hquiet id
    obtain ⟨hbefore, hlog, -⟩ := acted_quiet hquiet
    exact (h.quiet hbefore id).trans (congrArg List.length hlog.symm)
  · intro id hdone
    exact acted_known hreach hadm (h.known id hdone)

theorem acted_page {rest : List RegistryEvent} {cursor : Option ℕ} {short : Bool} {start place : ℕ}
    (hresumes : ∀ ledger ∈ w.index.pendingStart, ledger ≤ w.chain.now)
    (h : Page w rest cursor short start place) :
    Page (w.acted host action) rest cursor short start place := by
  refine ⟨(acted_position hreach hadm hresumes).trans h.position, h.ahead,
    acted_knows hreach hadm h.knows, ?_,
    h.cursor, ?_⟩
  · intro i event hevent
    obtain ⟨hid, hfound⟩ := h.events i event hevent
    obtain ⟨more, hlog, -⟩ := step_log hreach hadm
    refine ⟨hid, ?_⟩
    change (published (step host w.chain action))[place + i]? = _
    rw [published, hlog, List.map_append, List.getElem?_append_left]
    · exact hfound
    · exact (List.getElem?_eq_some_iff.mp hfound).1
  · intro hquiet hshort
    obtain ⟨hbefore, hlog, -⟩ := acted_quiet hquiet
    exact (h.last hbefore hshort).trans (congrArg List.length hlog.symm)

theorem acted_followed (hresumes : ∀ ledger ∈ w.index.pendingStart, ledger ≤ w.chain.now)
    {pending : Pending} (h : Followed w pending) : Followed (w.acted host action) pending := by
  have hposition := acted_knowsPosition hreach hadm hresumes
  cases pending with
  | idle =>
      refine ⟨hposition h.1, ?_⟩
      intro hquiet
      obtain ⟨hbefore, hlog, -⟩ := acted_quiet hquiet
      have hknows := acted_knows hreach hadm (h.2 hbefore)
      rw [← hlog] at hknows
      exact hknows
  | latestLedger => exact hposition h
  | nextPage => exact hposition h
  | jobCount latest => exact ⟨hposition h.1, h.2.trans (step_now hreach.sound action)⟩
  | getJobs latest count start jobs =>
      obtain ⟨hknows, hsnapshot, hfresh⟩ := h
      exact ⟨hposition hknows, acted_snapshot hreach hadm hresumes hsnapshot, hfresh⟩
  | firstEvent latest => exact ⟨acted_snapshot hreach hadm hresumes h.1, h.2⟩
  | applying rest cursor short =>
      obtain ⟨start, place, hpage⟩ := h
      exact ⟨start, place, acted_page hreach hadm hresumes hpage⟩

theorem acted_kept (h : WatchHolds host w) : WatchHolds host (w.acted host action) := by
  refine ⟨hreach.step hadm, fun id => acted_truthful hreach hadm (h.truthful id), ?_, ?_⟩
  · intro ledger hledger
    exact (h.resumes ledger hledger).trans (step_now hreach.sound action)
  · exact acted_followed hreach hadm h.resumes h.followed

end Registry

/-! ## Methods begin and fail -/

section Methods

variable {w w' : Watched World}

/-- What is known does not depend on what the index waits for. -/
theorem KnowsPosition.of_same (h : KnowsPosition w) (hchain : w'.chain = w.chain)
    (hheld : w'.held = w.held)
    (hjobs : w'.index.jobs = w.index.jobs) (hcursor : w'.index.cursor = w.index.cursor)
    (hstart : w'.index.pendingStart = w.index.pendingStart) : KnowsPosition w' := by
  intro place hplace id
  have hposition : w'.index.position w'.chain.log = w.index.position w.chain.log := by
    rw [JobIndex.position, JobIndex.position, hcursor, hstart, hchain]
  rw [hposition] at hplace
  rw [hchain, hheld, hjobs]
  exact h place hplace id

theorem Page.back {rest : List RegistryEvent} {cursor : Option ℕ} {short : Bool} {start place : ℕ}
    (h : Page w rest cursor short start place) : KnowsPosition w := by
  intro at' hat id
  rw [h.position] at hat
  cases hat
  exact (h.knows id).behind h.ahead

/-- Wherever the index stands, it knows the jobs up to where the next page begins. -/
theorem Followed.position {pending : Pending} (h : Followed w pending) : KnowsPosition w := by
  cases pending with
  | idle => exact h.1
  | latestLedger => exact h
  | nextPage => exact h
  | jobCount latest => exact h.1
  | getJobs latest count start jobs => exact h.1
  | firstEvent latest =>
      obtain ⟨hsnapshot, hheld⟩ := h
      intro place hplace id
      rw [hheld]
      exact (hsnapshot.known id trivial).behind (hsnapshot.ahead place hplace id)
  | applying rest cursor short =>
      obtain ⟨start, place, hpage⟩ := h
      exact hpage.back

/-- A method may begin, or be given up, at any time. -/
theorem turned_kept (h : WatchHolds host w) {index : JobIndex} {quiet : Bool}
    (hjobs : index.jobs = w.index.jobs)
    (hcursor : index.cursor = w.index.cursor) (hstart : index.pendingStart = w.index.pendingStart)
    (hpending : index.pending = .latestLedger ∨ index.pending = .nextPage ∨
      (index.pending = .idle ∧ quiet = false)) :
    WatchHolds host { w with index, quiet } := by
  refine ⟨h.reachable, h.truthful, ?_, ?_⟩
  · intro ledger hledger
    exact h.resumes ledger (hstart.symm.trans hledger)
  · have hknows : KnowsPosition { w with index, quiet } :=
      h.followed.position.of_same rfl rfl hjobs hcursor hstart
    rcases hpending with hpending | hpending | ⟨hpending, hquiet⟩
    · rw [hpending]
      exact hknows
    · rw [hpending]
      exact hknows
    · rw [hpending]
      refine ⟨hknows, ?_⟩
      intro hset
      cases hquiet.symm.trans hset

theorem begun_kept (h : WatchHolds host w) {index : JobIndex} (hjobs : index.jobs = w.index.jobs)
    (hcursor : index.cursor = w.index.cursor) (hstart : index.pendingStart = w.index.pendingStart)
    (hpending : index.pending = .latestLedger ∨ index.pending = .nextPage) :
    WatchHolds host (w.begin index) := by
  unfold Watched.begin
  split
  · exact turned_kept h hjobs hcursor hstart (hpending.imp_right .inl)
  · exact h

theorem loads_kept (h : WatchHolds host w) : WatchHolds host (w.begin w.index.load) :=
  begun_kept h rfl rfl rfl (.inl rfl)

theorem syncs_kept (h : WatchHolds host w) : WatchHolds host (w.begin w.index.sync) := by
  unfold JobIndex.sync
  dsimp only
  split
  · exact begun_kept h rfl rfl rfl (.inl rfl)
  · exact begun_kept h rfl rfl rfl (.inr rfl)

theorem failed_kept (h : WatchHolds host w) : WatchHolds host (watch host w .failed) := by
  have hstops : w.index.failed = { w.index with pending := .idle } →
      WatchHolds host (watch host w .failed) := by
    intro hfailed
    simp only [watch, hfailed]
    exact turned_kept h rfl rfl rfl (.inr (.inr ⟨rfl, rfl⟩))
  have hreloads : w.index.failed = w.index.load → WatchHolds host (watch host w .failed) := by
    intro hfailed
    simp only [watch, hfailed]
    exact turned_kept h rfl rfl rfl (.inl rfl)
  have hgoesOn : w.index.failed = w.index →
      (∃ rest cursor short, w.index.pending = .applying rest cursor short) →
      WatchHolds host (watch host w .failed) := by
    rintro hfailed ⟨rest, cursor, short, hpending⟩
    simp only [watch, hfailed, hpending]
    exact h
  cases hpending : w.index.pending with
  | idle =>
      apply hstops
      have hsame : { w.index with pending := .idle } = w.index := by rw [← hpending]
      rw [hsame, JobIndex.failed, hpending]
  | latestLedger => exact hstops (by rw [JobIndex.failed, hpending])
  | jobCount latest => exact hstops (by rw [JobIndex.failed, hpending])
  | getJobs latest count start jobs => exact hstops (by rw [JobIndex.failed, hpending])
  | firstEvent latest => exact hstops (by rw [JobIndex.failed, hpending])
  | nextPage => exact hreloads (by rw [JobIndex.failed, hpending])
  | applying rest cursor short =>
      cases rest with
      | nil => exact hgoesOn (by rw [JobIndex.failed, hpending]) ⟨_, _, _, hpending⟩
      | cons event rest =>
          by_cases hasks : asks event.event = true
          · apply hreloads
            rw [JobIndex.failed, hpending]
            exact if_pos hasks
          · apply hgoesOn
            · rw [JobIndex.failed, hpending]
              exact if_neg hasks
            · exact ⟨_, _, _, hpending⟩

end Methods

/-! ## A load goes on -/

section Load

variable {w : Watched World} {latest : Timestamp} {reply : Reply}

theorem latestLedger_kept (h : WatchHolds host w) (hpending : w.index.pending = .latestLedger) :
    WatchHolds host (watch host w (.answered reply)) := by
  have hindex : w.index.answered w.chain reply =
      { w.index with pending := .jobCount w.chain.now } := by
    rw [JobIndex.answered, hpending]
  have hheld : w.heldAfter reply = w.held := by
    simp only [Watched.heldAfter, hpending, hindex]
  refine ⟨h.reachable, h.truthful, ?_, ?_⟩
  · intro ledger hledger
    apply h.resumes ledger
    simp only [watch, hindex] at hledger
    exact hledger
  · simp only [watch, hindex, hheld]
    exact ⟨h.followed.position.of_same rfl rfl rfl rfl rfl, le_rfl⟩

/-- The next page of jobs is asked for, or the listing is done. -/
theorem listed_followed {w : Watched World} {count start : ℕ} {jobs : Listing JobId IndexedJob}
    (hknows : KnowsPosition w)
    (hsnapshot : Snapshot w latest (fun id => id < start ∨ count ≤ id) jobs)
    (hfresh : ∀ id, start ≤ id → jobs.get id = none) :
    Followed { w with
        index := w.index.list latest count start jobs
        held := if start < count then w.held else w.read }
      (w.index.list latest count start jobs).pending := by
  unfold JobIndex.list
  split
  · exact ⟨hknows.of_same rfl rfl rfl rfl rfl,
      ⟨hsnapshot.latest_le, hsnapshot.since, hsnapshot.ahead, hsnapshot.quiet,
      hsnapshot.known⟩, hfresh⟩
  next hdone =>
    refine ⟨⟨hsnapshot.latest_le, hsnapshot.since, hsnapshot.ahead, hsnapshot.quiet, ?_⟩, rfl⟩
    intro id _
    apply hsnapshot.known id
    rcases Nat.lt_or_ge id start with hbefore | hafter
    · exact .inl hbefore
    · exact .inr ((Nat.le_of_not_lt hdone).trans hafter)

theorem heldAfter_list {w : Watched World} {count start : ℕ} {jobs : Listing JobId IndexedJob}
    (hpending : ∀ rest cursor short, w.index.pending ≠ .applying rest cursor short)
    (hindex : w.index.answered w.chain reply = w.index.list latest count start jobs) :
    w.heldAfter reply = if start < count then w.held else w.readAfter := by
  unfold Watched.heldAfter
  split
  next heq => exact absurd heq (hpending _ _ _)
  next =>
    rw [hindex, JobIndex.list]
    by_cases hmore : start < count
    · simp only [if_pos hmore]
    · simp only [if_neg hmore]

/-- A load that goes on with its listing. -/
theorem listing_kept (h : WatchHolds host w) {count start : ℕ} {jobs : Listing JobId IndexedJob}
    (hpending : (∃ latest, w.index.pending = .jobCount latest) ∨
      ∃ latest count start jobs, w.index.pending = .getJobs latest count start jobs)
    (hindex : w.index.answered w.chain reply = w.index.list latest count start jobs)
    (hsnapshot : Snapshot { w with read := w.readAfter } latest
      (fun id => id < start ∨ count ≤ id) jobs)
    (hfresh : ∀ id, start ≤ id → jobs.get id = none) : WatchHolds host
      (watch host w (.answered reply)) := by
  have hlisting : ∀ rest cursor short, w.index.pending ≠ .applying rest cursor short := by
    intro rest cursor short happlying
    rcases hpending with ⟨_, hpending⟩ | ⟨_, _, _, _, hpending⟩
    · cases hpending.symm.trans happlying
    · cases hpending.symm.trans happlying
  have hquiet : w.quietAfter = w.quiet := by
    rcases hpending with ⟨_, hpending⟩ | ⟨_, _, _, _, hpending⟩
    · rw [Watched.quietAfter, hpending]
    · rw [Watched.quietAfter, hpending]
  refine ⟨h.reachable, h.truthful, ?_, ?_⟩
  · intro ledger hledger
    apply h.resumes ledger
    simp only [watch, hindex, JobIndex.list] at hledger
    split at hledger
    · exact hledger
    · exact hledger
  · have hknows : KnowsPosition { w with read := w.readAfter } :=
      h.followed.position.of_same rfl rfl rfl rfl rfl
    simp only [watch, hindex, hquiet, heldAfter_list hlisting hindex]
    exact listed_followed hknows hsnapshot hfresh

theorem jobCount_kept (h : WatchHolds host w) (hpending : w.index.pending = .jobCount latest) :
    WatchHolds host (watch host w (.answered reply)) := by
  have hfollowed := h.followed
  rw [hpending] at hfollowed
  obtain ⟨hknows, hlatest⟩ := hfollowed
  have hread : w.readAfter = fun _ => w.chain.log.length := by rw [Watched.readAfter, hpending]
  refine listing_kept h (.inl ⟨latest, hpending⟩) (by rw [JobIndex.answered, hpending]) ?_
    fun id _ => rfl
  rw [hread]
  refine ⟨hlatest, fun id => firstOf_le _ _, ?_, fun _ _ => rfl, ?_⟩
  · intro place hplace id
    exact (hknows place hplace id).place_le.trans_eq (published_length _)
  · intro id hid
    -- Ids from the count on were not issued yet: there is nothing to read.
    have hnone : (standing w.chain.reg.jobs id).job = none := by
      have hissued : w.chain.reg.jobs.nextJobId ≤ id := hid.resolve_left (Nat.not_lt_zero id)
      rw [standing, h.reachable.sound.jobs.phase_fresh hissued]
      rfl
    have hknown := Known.read id (published w.chain) (standing w.chain.reg.jobs id)
    rw [hnone, published_length] at hknown
    exact hknown

/-- The jobs of a page, one after another. -/
theorem get_filled (table : JobTable) (ids : List JobId) (jobs : Listing JobId IndexedJob)
    (id : JobId) : ((ids.filterMap table.getJob).foldl
      (fun jobs job => jobs.set job.id (toIndexed job)) jobs).get id =
      if id ∈ ids then (indexed table id).or (jobs.get id) else jobs.get id := by
  induction ids generalizing jobs with
  | nil => rfl
  | cons other rest ih =>
      cases hjob : table.getJob other with
      | none =>
          rw [List.filterMap_cons_none hjob, ih]
          by_cases heq : id = other
          · subst heq
            simp [indexed, hjob]
          · simp [heq]
      | some job =>
          have hid := JobTable.getJob_id hjob
          rw [List.filterMap_cons_some hjob, List.foldl_cons, ih]
          by_cases heq : id = other
          · subst heq
            rw [hid, Listing.get_set_self, indexed, hjob]
            simp
          · rw [hid, Listing.get_set_of_ne heq]
            simp [heq]

/-- A page of jobs fills the entries of its ids. -/
theorem get_page {table : JobTable} {jobs : Listing JobId IndexedJob} {start : ℕ}
    (hsound : table.Sound)
    (hfits : table.nextJobId ≤ u64Max) (hfresh : ∀ id, start ≤ id → jobs.get id = none)
    (id : JobId) : ((table.getJobs start page).foldl
      (fun jobs job => jobs.set job.id (toIndexed job)) jobs).get id =
      if start ≤ id ∧ id < start + page then indexed table id else jobs.get id := by
  have hspan : ∀ key last : ℕ, start ≤ key ∧ key < start + (last - start) ↔
      start ≤ key ∧ key < last := by
    intro key last
    omega
  rw [JobTable.getJobs, get_filled]
  simp only [List.mem_range'_1, hspan,
    JobTable.lt_pageEnd hfits (show page ≤ maxGetJobsLimit from le_rfl)]
  by_cases hpage : start ≤ id ∧ id < start + page
  · rw [if_pos hpage, hfresh id hpage.1, Option.or_none]
    split
    · rfl
    next hissued =>
      -- An id of the page that was not issued yet.
      have hlate : table.nextJobId ≤ id := by
        rw [← Nat.not_lt]
        exact fun hlt => hissued ⟨hpage.1, hpage.2, hlt⟩
      rw [indexed_eq, standing, hsound.phase_fresh hlate]
      rfl
  · rw [if_neg hpage, if_neg fun hread => hpage ⟨hread.1, hread.2.1⟩]

theorem getJobs_kept (h : WatchHolds host w) {count start : ℕ} {jobs : Listing JobId IndexedJob}
    (hpending : w.index.pending = .getJobs latest count start jobs) :
    WatchHolds host (watch host w (.answered reply)) := by
  have hfollowed := h.followed
  rw [hpending] at hfollowed
  obtain ⟨hknows, hsnapshot, hfresh⟩ := hfollowed
  have hread : ∀ id, w.readAfter id =
      if start ≤ id ∧ id < start + page then w.chain.log.length else w.read id := by
    intro id
    rw [Watched.readAfter, hpending]
  have hread_le : ∀ id, w.readAfter id = w.chain.log.length ∨ w.readAfter id = w.read id := by
    intro id
    rw [hread]
    split
    · exact .inl rfl
    · exact .inr rfl
  have hget := get_page h.reachable.sound.jobs h.reachable.idsFit hfresh
  refine listing_kept h (.inr ⟨_, _, _, _, hpending⟩) (by rw [JobIndex.answered, hpending]) ?_ ?_
  · refine ⟨hsnapshot.latest_le, ?_, ?_, ?_, ?_⟩
    · intro id
      rcases hread_le id with hnow | hold
      · exact (firstOf_le _ _).trans_eq hnow.symm
      · exact (hsnapshot.since id).trans_eq hold.symm
    · intro place hplace id
      rcases hread_le id with hnow | hold
      · exact ((hknows place hplace id).place_le.trans_eq (published_length _)).trans_eq hnow.symm
      · exact (hsnapshot.ahead place hplace id).trans_eq hold.symm
    · intro hquiet id
      rcases hread_le id with hnow | hold
      · exact hnow
      · exact hold.trans (hsnapshot.quiet hquiet id)
    · intro id hid
      simp only [hread, hget]
      split
      -- A job of this page was read just now, the others are as they were.
      · have hknown := Known.read id (published w.chain) (standing w.chain.reg.jobs id)
        rw [← indexed_eq, published_length] at hknown
        exact hknown
      next hother =>
        apply hsnapshot.known id
        rcases hid with hbefore | hcounted
        · left
          rw [← Nat.not_le]
          exact fun hstart => hother ⟨hstart, hbefore⟩
        · exact .inr hcounted
  · intro id hid
    have hstart : start ≤ id := (Nat.le_add_right _ _).trans hid
    rw [hget, if_neg fun hpage => Nat.not_lt.mpr hid hpage.2]
    exact hfresh id hstart

/-- Where a page ends, whether or not the server tells. -/
theorem eventPage_cursor (log : List (Timestamp × Event)) (start limit : ℕ) (reply : Reply) :
    (eventPage log start limit reply).cursor =
      some (start + (eventPage log start limit reply).events.length) ∨
      ((eventPage log start limit reply).cursor = none ∧
        (eventPage log start limit reply).events = []) := by
  by_cases hnone : (eventPage log start limit reply).events.length = 0 ∧ reply.hasCursor = false
  · exact .inr ⟨if_pos hnone, List.eq_nil_of_length_eq_zero hnone.1⟩
  · exact .inl (if_neg hnone)

/-- The load opens the cursor behind the first event of its ledger. That event must not concern a
job read before it. -/
theorem firstEvent_kept (h : WatchHolds host w) (hpending : w.index.pending = .firstEvent latest)
    (hskips : ∀ event ∈ (eventPage w.chain.log (firstOf w.chain.log latest) 1 reply).events,
      ∀ id ∈ tracked event.event, event.id < w.held id) : WatchHolds host
        (watch host w (.answered reply)) := by
  have hfollowed := h.followed
  rw [hpending] at hfollowed
  obtain ⟨hsnapshot, hheld⟩ := hfollowed
  have hcursor := eventPage_cursor w.chain.log (firstOf w.chain.log latest) 1 reply
  have hlength := eventPage_length w.chain.log (firstOf w.chain.log latest) 1 reply
  have hget := fun place event =>
    @eventPage_get w.chain.log (firstOf w.chain.log latest) 1 place reply event
  have hindex : w.index.answered w.chain reply = { w.index with
      cursor := (eventPage w.chain.log (firstOf w.chain.log latest) 1 reply).cursor
      pendingStart :=
        if (eventPage w.chain.log (firstOf w.chain.log latest) 1 reply).cursor.isSome then none
          else some latest
      pending := .idle } := by
    rw [JobIndex.answered, hpending]
  -- From here on only where the page begins and how long it is matters.
  generalize eventPage w.chain.log (firstOf w.chain.log latest) 1 reply = found at *
  have hone : found.events.length ≤ 1 := by
    rw [hlength]
    exact (Nat.min_le_left _ _).trans (Nat.min_le_right _ _)
  have hknows : Knows w (firstOf w.chain.log latest + found.events.length) := by
    intro id
    have hknown := hsnapshot.known id trivial
    have hsince := hsnapshot.since id
    rw [hheld]
    by_cases hread : firstOf w.chain.log latest + found.events.length ≤ w.read id
    · exact hknown.behind hread
    · -- The job was read just before the event that the cursor skips.
      have hnext : found.events.length = 1 ∧ firstOf w.chain.log latest = w.read id := by omega
      obtain ⟨event, hevent⟩ := List.length_eq_one_iff.mp hnext.1
      have hfirst : found.events[0]? = some event := by rw [hevent]; rfl
      obtain ⟨hplace, hpublished⟩ := hget 0 event hfirst
      rw [Nat.add_zero, hnext.2] at hplace hpublished
      have htracked : tracked event.event ≠ some id := by
        intro htracked
        have hskipped := hskips event (by rw [hevent]; exact List.mem_cons_self) id htracked
        rw [hheld, hplace] at hskipped
        exact lt_irrefl _ hskipped
      rw [hnext.1, hnext.2]
      exact hknown.passed hpublished (h.truthful id) htracked
  have hafter : WatchHolds host { w with index := w.index.answered w.chain reply } := by
    rw [hindex]
    refine ⟨h.reachable, h.truthful, ?_, ?_, ?_⟩
    · intro ledger hledger
      dsimp only at hledger
      split at hledger
      · cases hledger
      · cases hledger
        exact hsnapshot.latest_le
    · intro place hplace
      have hposition : place = firstOf w.chain.log latest + found.events.length := by
        rcases hcursor with hcursor | ⟨hcursor, hnone⟩
        · rw [JobIndex.position, hcursor] at hplace
          cases hplace
          rfl
        · rw [JobIndex.position, hcursor] at hplace
          cases hplace
          rw [hnone]
          rfl
      rw [hposition]
      exact hknows
    · intro hquiet id
      have hknown := hsnapshot.known id trivial
      change Known id (published w.chain) w.chain.log.length (w.held id) (w.index.jobs.get id) _
      rw [hheld]
      rw [hsnapshot.quiet hquiet id] at hknown ⊢
      exact hknown
  have hstays : watch host w (.answered reply) =
      { w with index := w.index.answered w.chain reply } := by
    have hheldAfter : w.heldAfter reply = w.held := by
      simp only [Watched.heldAfter, hpending, hindex]
    simp only [watch, Watched.quietAfter, Watched.readAfter, hpending, hheldAfter]
  rw [hstays]
  exact hafter

end Load

/-! ## A sync goes on -/

section Sync

variable {w : Watched World} {reply : Reply}

/-- A page of events comes. A short one must be the last. -/
theorem nextPage_kept (h : WatchHolds host w) (hpending : w.index.pending = .nextPage)
    (hshort : reply.count < eventLimit →
      ∀ start ∈ w.index.position w.chain.log, w.chain.log.length ≤ start + reply.count) :
    WatchHolds host (watch host w (.answered reply)) := by
  have hknows := h.followed.position
  -- Without a position the answer changes nothing.
  cases hposition : w.index.position w.chain.log with
  | none =>
      have hindex : w.index.answered w.chain reply = w.index := by
        simp only [JobIndex.answered, hpending, hposition]
      have hheld : w.heldAfter reply = w.held := by simp only [Watched.heldAfter, hpending, hindex]
      refine ⟨h.reachable, h.truthful, ?_, ?_⟩
      · simp only [watch, hindex]
        exact h.resumes
      · simp only [watch, hindex, hheld, hpending]
        exact hknows.of_same rfl rfl rfl rfl rfl
  | some start =>
      have hfound := eventPage_length w.chain.log start eventLimit reply
      have hcursor := eventPage_cursor w.chain.log start eventLimit reply
      have hget := fun place event => @eventPage_get w.chain.log start eventLimit place reply event
      have hindex : w.index.answered w.chain reply = { w.index with
          pending := .applying (eventPage w.chain.log start eventLimit reply).events
            (eventPage w.chain.log start eventLimit reply).cursor
            ((eventPage w.chain.log start eventLimit reply).events.length < eventLimit) } := by
        simp only [JobIndex.answered, hpending, hposition]
      have hheld : w.heldAfter reply = w.held := by simp only [Watched.heldAfter, hpending, hindex]
      generalize eventPage w.chain.log start eventLimit reply = found at *
      have hstart : start ≤ w.chain.log.length :=
        ((hknows start hposition 0).place_le).trans_eq (published_length _)
      refine ⟨h.reachable, h.truthful, ?_, ?_⟩
      · simp only [watch, hindex]
        exact h.resumes
      · simp only [watch, hindex, hheld]
        refine ⟨start, start, hposition, le_rfl, hknows start hposition, hget, ?_, ?_⟩
        · exact hcursor.imp_right fun hnone => ⟨hnone.1, hnone.2, rfl⟩
        -- A page is short because the log ended, not because the server held back.
        · rintro - hlast
          have hfew : found.events.length < eventLimit := of_decide_eq_true hlast
          change start + found.events.length = w.chain.log.length
          by_cases hcount : reply.count < eventLimit
          · have hall := hshort hcount start hposition
            omega
          · omega

theorem heldNext_eq (w : Watched World) (event : RegistryEvent) (id : JobId) :
    heldNext id (published w.chain).length (standing w.chain.reg.jobs id) event.event event.id
      (w.held id) =
      if tracked event.event = some id then w.heldSince event (w.held id) else w.held id := by
  have hread : (standing w.chain.reg.jobs id).job.isSome = (w.chain.reg.jobs.getJob id).isSome := by
    rw [← indexed_eq, indexed, Option.isSome_map]
  obtain ⟨place, event⟩ := event
  rw [heldNext, hread, published_length]
  by_cases htracked : tracked event = some id
  · have hposting : posting id event = _ := if_pos htracked
    rw [if_pos htracked, hposting]
    cases event with
    | jobCreated other =>
        cases htracked
        exact if_pos ⟨rfl, rfl⟩
    | jobUpdated other =>
        cases htracked
        exact if_pos ⟨rfl, rfl⟩
    | _ => exact if_neg fun hlooks => Bool.noConfusion hlooks.2
  · rw [if_neg htracked, if_neg fun hlooks => htracked hlooks.1, posting_of_untracked htracked]

/-- An event of the page is applied. A run must not be charged to a balance that was read after
it. -/
theorem applying_kept (h : WatchHolds host w) {event : RegistryEvent} {rest : List RegistryEvent}
    {cursor : Option ℕ}
    {short : Bool} (hpending : w.index.pending = .applying (event :: rest) cursor short)
    (hcharged : ∀ id fee, posting id event.event = .spent fee →
      (w.index.jobs.get id).isSome = true →
      w.held id ≤ event.id) :
    WatchHolds host (watch host w (.answered reply)) := by
  have hfollowed := h.followed
  rw [hpending] at hfollowed
  obtain ⟨start, place, hpage⟩ := hfollowed
  obtain ⟨hplace, hpublished⟩ := hpage.events 0 event rfl
  rw [Nat.add_zero] at hplace hpublished
  have hindex : w.index.answered w.chain reply = { w.index with
      jobs := applyEvent w.chain.reg.jobs.getJob w.index.jobs event.event
      pending := .applying rest cursor short } := by
    simp only [JobIndex.answered, hpending]
  have hheld : ∀ id, w.heldAfter reply id =
      heldNext id (published w.chain).length (standing w.chain.reg.jobs id) event.event event.id
        (w.held id) := by
    intro id
    rw [heldNext_eq]
    simp only [Watched.heldAfter, hpending]
  refine ⟨h.reachable, h.truthful, ?_, ?_⟩
  · simp only [watch, hindex]
    exact h.resumes
  · simp only [watch, hindex, Watched.quietAfter, Watched.readAfter, hpending]
    refine ⟨start, place + 1, hpage.position, hpage.ahead.trans (Nat.le_succ _), ?_, ?_, ?_, ?_⟩
    · intro id
      have hknown := (hpage.knows id).heard hpublished (h.truthful id) ?_
      · dsimp only
        rw [hheld, get_applyEvent, indexed_eq, hplace]
        exact hknown
      · intro fee hspent hkept
        rw [← hplace]
        exact hcharged id fee hspent hkept
    · intro i found hfound
      have hnext := hpage.events (i + 1) found hfound
      rw [Nat.add_assoc, Nat.add_comm 1 i]
      exact hnext
    · rcases hpage.cursor with hcursor | ⟨-, hnone, -⟩
      · left
        rw [hcursor, List.length_cons, Nat.add_assoc, Nat.add_comm 1]
      · cases hnone
    -- One event fewer is left, and the position is one further.
    · intro hquiet hlast
      have hend := hpage.last hquiet hlast
      rw [List.length_cons] at hend
      change place + 1 + rest.length = w.chain.log.length
      omega

/-- The page is done. -/
theorem applied_kept (h : WatchHolds host w) {cursor : Option ℕ} {short : Bool}
    (hpending : w.index.pending = .applying [] cursor short) :
    WatchHolds host (watch host w (.answered reply)) := by
  have hfollowed := h.followed
  rw [hpending] at hfollowed
  obtain ⟨start, place, hpage⟩ := hfollowed
  have hindex : w.index.answered w.chain reply = { w.index with
      cursor := if cursor.isSome then cursor else w.index.cursor
      pendingStart := if cursor.isSome then none else w.index.pendingStart
      pending := if short then .idle else .nextPage } := by
    simp only [JobIndex.answered, hpending]
  have hheld : w.heldAfter reply = w.held := by
    simp only [Watched.heldAfter, hpending, hindex]
    cases short with
    | true => rfl
    | false => rfl
  have hposition :
      ({ w with index := w.index.answered w.chain reply } : Watched World).index.position
      w.chain.log = some place := by
    rw [hindex]
    -- A page without a cursor was empty: the old position stands.
    rcases hpage.cursor with rfl | ⟨rfl, -, rfl⟩
    · rfl
    · exact hpage.position
  have hknows : KnowsPosition { w with index := w.index.answered w.chain reply } := by
    intro at' hat
    cases hposition.symm.trans hat
    rw [hindex]
    exact hpage.knows
  have hstays : watch host w (.answered reply) =
      { w with index := w.index.answered w.chain reply } := by
    simp only [watch, Watched.quietAfter, Watched.readAfter, hpending, hheld]
  rw [hstays]
  refine ⟨h.reachable, h.truthful, ?_, ?_⟩
  · intro ledger hledger
    rw [hindex] at hledger
    apply h.resumes ledger
    cases cursor with
    | some found => cases hledger
    | none => exact hledger
  · rw [hindex] at hknows ⊢
    cases short with
    | false => exact hknows
    | true =>
        refine ⟨hknows, ?_⟩
        intro hquiet
        have hend := hpage.last hquiet rfl
        rw [List.length_nil, Nat.add_zero] at hend
        change Knows _ w.chain.log.length
        rw [← hend]
        exact hpage.knows

end Sync

end SoroCron.KeeperBot
