import Mathlib.Data.List.TakeWhile
import SoroCron.KeeperBot.JobWatch
import SoroCron.Registry.Deployment

/-! # Following a job to its end

A watch prints the events of its job from where it began, in order and each of them once. It ends by
itself only with the job, and then there is nothing more to print.
-/

namespace SoroCron.KeeperBot

open Bounded

variable {World : Type} {host : Host World} {c : Chain World} {action : Action World}
  {now : Timestamp}
  {notice : Notice World} {p p' : Picture} {id : JobId} {event : Event} {events : List Event}

/-! ## After the end -/

theorem concerns_missEvents {keepers : KeeperTable} {jobId : JobId} {ranBy : Address}
    {charged : Option Address} :
    ∀ event ∈ missEvents keepers jobId ranBy charged, concerns event = some jobId := by
  intro event hmem
  cases charged with
  | none => cases hmem
  | some missed =>
      rw [missEvents] at hmem
      split at hmem
      · cases List.mem_singleton.mp hmem
        rfl
      · cases hmem

/-- What happens concerns live jobs and new ones. -/
theorem standing_of_concerned (h : Told host now notice p p') (hmem : event ∈ notice.events)
    (hid : concerns event = some id) : standing p.jobs id ≠ .gone := by
  have hlive : ∀ {key spec state}, p.jobs.getJobParts key = some (spec, state) →
      some key = some id →
      standing p.jobs id ≠ .gone := by
    intro key spec state hparts hkey hgone
    cases hkey
    rw [standing_of_phase (phase_of_parts hparts)] at hgone
    cases hgone
  cases h with
  | created hsound hunoffered =>
      rw [List.mem_singleton.mp hmem] at hid
      cases hid
      rw [standing_of_phase (hsound.phase_fresh le_rfl)]
      rintro ⟨⟩
  | updated hparts =>
      rw [List.mem_singleton.mp hmem] at hid
      exact hlive hparts hid
  | funded hparts =>
      rw [List.mem_singleton.mp hmem] at hid
      exact hlive hparts hid
  | withdrawn hparts =>
      rw [List.mem_singleton.mp hmem] at hid
      exact hlive hparts hid
  | activeSet hparts =>
      rw [List.mem_singleton.mp hmem] at hid
      exact hlive hparts hid
  | offered hparts =>
      rw [List.mem_singleton.mp hmem] at hid
      exact hlive hparts hid
  | handedOver hparts =>
      rw [List.mem_singleton.mp hmem] at hid
      exact hlive hparts hid
  | cancelled hparts =>
      rw [List.mem_singleton.mp hmem] at hid
      exact hlive hparts hid
  | @ran execution r hnow hjobs hconfig hran =>
      rw [hran.notice_events] at hmem
      have hkey : concerns event = some execution.jobId := by
        simp only [Receipt.events, List.mem_append, List.mem_ite_nil_right,
          List.mem_singleton] at hmem
        rcases hmem with ((⟨-, rfl⟩ | ⟨-, rfl⟩) | hmissed) | rfl
        · rfl
        · rfl
        · exact concerns_missEvents event hmissed
        · rfl
      exact hlive hran.admitted.parts (hkey.symm.trans hid)
  | @configured _ call reg htreasury =>
      rw [List.mem_singleton.mp hmem] at hid
      cases call with
      | _ => cases hid
  | _ =>
      rw [List.mem_singleton.mp hmem] at hid
      cases hid

/-- A job's cancellation is all that its change tells. -/
theorem News.only {before after : Standing} {refund : ℤ} (h : News id events before after)
    (hmem : .jobCancelled id refund ∈ events) : events = [.jobCancelled id refund] := by
  cases h with
  | silent standing hsilent => exact absurd rfl (hsilent _ hmem)
  | cancelled job => rw [List.mem_singleton.mp hmem]
  | @ran job stops failures failures' runs lateness missed keeper success fee protocolFee
      left nextRun digest
      hmissed hfee hfunded hleft =>
      simp only [List.mem_append, List.mem_ite_nil_right, List.mem_singleton, reduceCtorEq,
        and_false, false_or, or_false] at hmem
      cases hmissed _ hmem
  | _ => cases List.mem_singleton.mp hmem

/-- Nothing in the log comes after a job's cancellation. -/
def Ends (id : JobId) (events : List Event) (jobs : JobTable) : Prop :=
  ∀ before refund after, events = before ++ .jobCancelled id refund :: after →
    standing jobs id = .gone ∧ ∀ event ∈ after, concerns event ≠ some id

/-- The notice that tells of the end tells of nothing else. -/
theorem ended_of_told {before after : List Event} {refund : ℤ} (hissued : Issued p.jobs)
    (htold : Told host now notice p p')
    (hnew : notice.events = before ++ .jobCancelled id refund :: after) :
    standing p'.jobs id = .gone ∧ after = [] := by
  have hnews := news_of_told htold hissued id
  have hmem : .jobCancelled id refund ∈ notice.events := by
    rw [hnew]
    exact List.mem_append_right _ List.mem_cons_self
  have hlength := congrArg List.length (hnew.symm.trans (hnews.only hmem))
  rw [List.length_append, List.length_cons, List.length_singleton] at hlength
  exact ⟨hnews.gone (.inr ⟨refund, hmem⟩), List.eq_nil_of_length_eq_zero (by omega)⟩

theorem Ends.told (h : Ends id events p.jobs) (hissued : Issued p.jobs)
    (htold : Told host now notice p p') : Ends id (events ++ notice.events) p'.jobs := by
  intro before refund after hsplit
  rcases List.append_eq_append_iff.mp hsplit with ⟨middle, -, hnew⟩ | ⟨middle, hold, hnew⟩
  · obtain ⟨hgone, rfl⟩ := ended_of_told hissued htold hnew
    exact ⟨hgone, fun event hmem => absurd hmem List.not_mem_nil⟩
  · cases middle with
    | nil =>
        have hfirst : notice.events = [] ++ .jobCancelled id refund :: after := hnew.symm
        obtain ⟨hgone, rfl⟩ := ended_of_told hissued htold hfirst
        exact ⟨hgone, fun event hmem => absurd hmem List.not_mem_nil⟩
    | cons first middle =>
        obtain ⟨rfl, rfl⟩ := List.cons.inj hnew
        obtain ⟨hgone, hquiet⟩ := h before refund middle hold
        refine ⟨(news_of_told htold hissued id).gone (.inl hgone), ?_⟩
        intro event hmem hid
        rcases List.mem_append.mp hmem with hearlier | hnow
        · exact hquiet event hearlier hid
        · exact standing_of_concerned htold hnow hid hgone

section Printing

variable {log more : List (Timestamp × Event)} {first upto : ℕ} {page : List RegistryEvent}

/-- The log with the place of each event. -/
def numbered (log : List (Timestamp × Event)) : List RegistryEvent :=
  log.zipIdx.map fun entry => { id := entry.2, event := entry.1.2 }

/-- The events about the job from one place to another. -/
def eventsOf (id : JobId) (log : List (Timestamp × Event)) (first upto : ℕ) : List RegistryEvent :=
  (((numbered log).take upto).drop first).filter fun event => isJobEvent event id

theorem length_numbered (log : List (Timestamp × Event)) : (numbered log).length = log.length := by
  rw [numbered, List.length_map, List.length_zipIdx]

theorem numbered_append (log more : List (Timestamp × Event)) :
    (numbered (log ++ more)).take log.length = numbered log := by
  rw [numbered, List.zipIdx_append, List.map_append, List.take_left']
  · rfl
  · exact length_numbered log

theorem eventPage_eq (log : List (Timestamp × Event)) (start limit : ℕ) (reply : Reply) :
    (eventPage log start limit reply).events =
      ((numbered log).drop start).take (min reply.count limit) := by
  rw [eventPage, numbered, ← List.map_drop, ← List.map_take]
  refine congrArg (List.map _) ?_
  apply List.ext_getElem?
  intro place
  rw [List.getElem?_zipIdx, List.getElem?_take, List.getElem?_take, List.getElem?_drop,
    List.getElem?_drop, List.getElem?_zipIdx]
  split
  · simp
  · rfl

/-- What a page adds. -/
theorem eventsOf_page (id : JobId) (hfirst : first ≤ upto) (hupto : upto ≤ log.length) (size : ℕ) :
    eventsOf id log first upto ++
      (((numbered log).drop upto).take size).filter (fun event => isJobEvent event id) =
      eventsOf id log first (upto + size) := by
  have hlength : first ≤ ((numbered log).take upto).length := by
    rw [List.length_take, length_numbered]
    omega
  rw [eventsOf, eventsOf, List.take_add, List.drop_append_of_le_length hlength, List.filter_append]

theorem eventsOf_append (id : JobId) (hupto : upto ≤ log.length) :
    eventsOf id (log ++ more) first upto = eventsOf id log first upto := by
  have htake : (numbered (log ++ more)).take upto = (numbered log).take upto := by
    rw [← numbered_append log more, List.take_take, Nat.min_eq_left hupto]
  rw [eventsOf, htake, eventsOf]

/-- A page is printed as a whole, or up to the job's cancellation. -/
theorem printable_eq (id : JobId) (page : List RegistryEvent) :
    ((printable id page).2 = false ∧ (printable id page).1 =
      page.filter (fun event => isJobEvent event id) ∧
        ∀ event ∈ page.filter (fun event => isJobEvent event id),
          isCancellation event.event = false) ∨
      ((printable id page).2 = true ∧ ∃ size, size ≤ page.length ∧
        (printable id page).1 = (page.take size).filter (fun event => isJobEvent event id) ∧
        ∃ event ∈ (printable id page).1, isCancellation event.event = true) := by
  induction page with
  | nil => exact .inl ⟨rfl, rfl, fun event hmem => absurd hmem List.not_mem_nil⟩
  | cons event rest ih =>
      cases habout : isJobEvent event id with
      | false =>
          have hskip : printable id (event :: rest) = printable id rest := by
            rw [printable, if_pos habout]
          rw [hskip, List.filter_cons_of_neg (by simp [habout])]
          refine ih.imp_right ?_
          rintro ⟨hover, size, hsize, hshown, hlast⟩
          refine ⟨hover, size + 1, Nat.succ_le_succ hsize, ?_, hlast⟩
          rw [List.take_succ_cons, List.filter_cons_of_neg (by simp [habout]), hshown]
      | true =>
          cases hcancels : isCancellation event.event with
          | true =>
              have hend : printable id (event :: rest) = ([event], true) := by
                rw [printable, if_neg (by simp [habout]), if_pos hcancels]
              rw [hend]
              refine .inr ⟨rfl, 1, Nat.succ_le_succ (Nat.zero_le _), ?_, event,
                List.mem_singleton_self _, hcancels⟩
              rw [List.take_succ_cons, List.take_zero,
                List.filter_cons_of_pos (p := fun event => isJobEvent event id) habout]
              rfl
          | false =>
              have hmore : printable id (event :: rest) =
                  (event :: (printable id rest).1, (printable id rest).2) := by
                rw [printable, if_neg (by simp [habout]), if_neg (by simp [hcancels])]
              rw [hmore, List.filter_cons_of_pos (p := fun event => isJobEvent event id) habout]
              rcases ih with ⟨hgoes, hshown, hnone⟩ |
                ⟨hover, size, hsize, hshown, last, hlast, hends⟩
              · refine .inl ⟨hgoes, congrArg (event :: ·) hshown, ?_⟩
                intro other hother
                rcases List.mem_cons.mp hother with rfl | hin
                · exact hcancels
                · exact hnone other hin
              · refine .inr ⟨hover, size + 1, Nat.succ_le_succ hsize, ?_, last,
                  List.mem_cons_of_mem _ hlast, hends⟩
                rw [List.take_succ_cons,
                  List.filter_cons_of_pos (p := fun event => isJobEvent event id) habout]
                exact congrArg (event :: ·) hshown

end Printing

/-! ## The watch -/

section Watch

variable {clock : Sdk.LedgerClock} {w : WatchedJob World} {ledger latest upto : ℕ} {reply : Reply}

/-- Whether the watch will read another page. -/
def goesOn : WatchPhase → Bool
  | .pausing | .reading | .retrying _ => true
  | _ => false

/-- A watch that has seen nothing so far, and will read from the first event of `ledger`. -/
structure Waits (clock : Sdk.LedgerClock) (ledger : ℕ) (w : WatchedJob World) : Prop where
  quiet : w.watch.printed = []
  cursor : w.watch.cursor = none
  phase : w.watch.phase ≠ .returned
  later : w.watch.start ≤ w.watch.startLedger
  start : goesOn w.watch.phase = true → w.watch.startLedger = ledger ∨
    w.watch.startLedger ≤ clock.ledgerOf w.chain.now ∧ ledger ≤ clock.ledgerOf w.chain.now ∧
      clock.firstOf w.chain.log w.watch.startLedger = clock.firstOf w.chain.log ledger

/-- A watch that began at `ledger` has printed the events of its job up to some place. -/
structure Shown (clock : Sdk.LedgerClock) (ledger upto : ℕ) (w : WatchedJob World) : Prop where
  began : ledger ≤ clock.ledgerOf w.chain.now
  from_le : clock.firstOf w.chain.log ledger ≤ upto
  upto_le : upto ≤ w.chain.log.length
  printed : w.watch.printed =
    eventsOf w.watch.jobId w.chain.log (clock.firstOf w.chain.log ledger) upto
  ended : w.watch.phase = .returned ↔ ∃ event ∈ w.watch.printed, isCancellation event.event = true

/-- And it has a cursor to go on from there. -/
structure Prints (clock : Sdk.LedgerClock) (ledger upto : ℕ) (w : WatchedJob World) : Prop
    extends Shown clock ledger upto w where
  cursor : goesOn w.watch.phase = true → w.watch.cursor = some upto

theorem eventsOf_nothing (id : JobId) (log : List (Timestamp × Event)) (first : ℕ) :
    eventsOf id log first first = [] := by
  rw [eventsOf, List.drop_eq_nil_of_le (List.length_take_le _ _)]
  rfl

/-- What is found from a ledger on stays where it is while the registry goes on. -/
theorem firstOf_step (hreach : Reachable host w.chain) (hadm : Admissible host w.chain action)
    (hledger : ledger ≤ clock.ledgerOf w.chain.now) :
    clock.firstOf (step host w.chain action).log ledger = clock.firstOf w.chain.log ledger := by
  obtain ⟨more, hlog, htimes⟩ := step_log hreach hadm
  rw [hlog]
  apply Sdk.LedgerClock.firstOf_append
  intro entry hentry
  rw [htimes entry hentry]
  exact hledger

theorem ledgerOf_step (hreach : Reachable host w.chain) (action : Action World) :
    clock.ledgerOf w.chain.now ≤ clock.ledgerOf (step host w.chain action).now :=
  clock.ordered (step_now hreach.sound action)

theorem Waits.registry (h : Waits clock ledger w) (hreach : Reachable host w.chain)
    (hadm : Admissible host w.chain action) :
    Waits clock ledger { w with chain := step host w.chain action } := by
  refine ⟨h.quiet, h.cursor, h.phase, h.later, ?_⟩
  intro hgoes
  refine (h.start hgoes).imp_right ?_
  rintro ⟨hstart, hledger, hsame⟩
  have hnow : clock.ledgerOf w.chain.now ≤ clock.ledgerOf (step host w.chain action).now :=
    ledgerOf_step hreach action
  refine ⟨hstart.trans hnow, hledger.trans hnow, ?_⟩
  exact (firstOf_step hreach hadm hstart).trans
    (hsame.trans (firstOf_step hreach hadm hledger).symm)

theorem Shown.registry (h : Shown clock ledger upto w) (hreach : Reachable host w.chain)
    (hadm : Admissible host w.chain action) :
    Shown clock ledger upto { w with chain := step host w.chain action } := by
  obtain ⟨more, hlog, -⟩ := step_log hreach hadm
  have hfirst := firstOf_step hreach hadm h.began
  refine ⟨h.began.trans (ledgerOf_step hreach action), hfirst.trans_le h.from_le, ?_, ?_, h.ended⟩
  · change upto ≤ (step host w.chain action).log.length
    rw [hlog, List.length_append]
    exact h.upto_le.trans (Nat.le_add_right _ _)
  · change w.watch.printed =
      eventsOf _ (step host w.chain action).log
        (clock.firstOf (step host w.chain action).log ledger) _
    rw [hfirst, hlog, eventsOf_append _ h.upto_le]
    exact h.printed

theorem Shown.silent (h : Shown clock ledger upto w) (hphase : w.watch.phase ≠ .returned) :
    ∀ event ∈ w.watch.printed, isCancellation event.event = false := by
  intro event hmem
  rw [← Bool.not_eq_true]
  exact fun hcancels => hphase (h.ended.mpr ⟨event, hmem, hcancels⟩)

/-- What is printed with the first events of a page. -/
theorem Shown.more {size : ℕ} (h : Shown clock ledger upto w)
    (hsize : size ≤ (eventPage w.chain.log upto watchLimit reply).events.length) :
    w.watch.printed ++ (((eventPage w.chain.log upto watchLimit reply).events.take size).filter
      fun event => isJobEvent event w.watch.jobId) =
      eventsOf w.watch.jobId w.chain.log (clock.firstOf w.chain.log ledger) (upto + size) := by
  have hlength := eventPage_length w.chain.log upto watchLimit reply
  rw [h.printed, eventPage_eq, List.take_take, ← eventsOf_page _ h.from_le h.upto_le]
  rw [hlength] at hsize
  rw [Nat.min_eq_left (hsize.trans (Nat.min_le_left _ _))]

/-- A page is printed up to the job's cancellation, or as a whole if there is a cursor to go on. -/
theorem Shown.took (h : Shown clock ledger upto w) (hphase : w.watch.phase ≠ .returned)
    (hcursor : ((eventPage w.chain.log upto watchLimit reply).cursor <|> w.watch.cursor) =
      some (upto + (eventPage w.chain.log upto watchLimit reply).events.length)) (latest : ℕ) :
    ∃ upto', Prints clock ledger upto'
      { w with watch := w.watch.took latest (eventPage w.chain.log upto watchLimit reply) } := by
  have hsilent := h.silent hphase
  have hlength := eventPage_length w.chain.log upto watchLimit reply
  have hle := h.upto_le
  have hfrom := h.from_le
  rcases printable_eq w.watch.jobId (eventPage w.chain.log upto watchLimit reply).events with
    ⟨hgoes, hshown, hnone⟩ | ⟨hover, size, hsize, hshown, hcancelled⟩
  · refine ⟨upto + (eventPage w.chain.log upto watchLimit reply).events.length, ?_⟩
    rw [JobWatch.took, if_neg (by simp [hgoes]), hshown]
    refine ⟨⟨h.began, hfrom.trans (Nat.le_add_right _ _), ?_, ?_, ?_⟩, fun _ => hcursor⟩
    · dsimp only
      omega
    · have hall := h.more (Nat.le_refl (eventPage w.chain.log upto watchLimit reply).events.length)
      rwa [List.take_length] at hall
    · refine iff_of_false (by rintro ⟨⟩) ?_
      rintro ⟨event, hmem, hcancels⟩
      rcases List.mem_append.mp hmem with hold | hnew
      · rw [hsilent event hold] at hcancels
        cases hcancels
      · rw [hnone event hnew] at hcancels
        cases hcancels
  · refine ⟨upto + size, ?_⟩
    obtain ⟨event, hmem, hcancels⟩ := hcancelled
    rw [JobWatch.took, if_pos hover]
    rw [hshown] at hmem ⊢
    refine ⟨⟨h.began, hfrom.trans (Nat.le_add_right _ _), ?_, h.more hsize, ?_⟩, by rintro ⟨⟩⟩
    · rw [hlength] at hsize
      dsimp only
      omega
    · exact iff_of_true rfl ⟨event, List.mem_append_right _ hmem, hcancels⟩

/-! ## The first page -/

/-- A server that has the ledger asked for answers from where the watch begins. -/
theorem Waits.shown (h : Waits clock ledger w) (hgoes : goesOn w.watch.phase = true)
    (hlatest : w.watch.startLedger ≤ clock.ledgerOf w.chain.now) :
    clock.firstOf w.chain.log w.watch.startLedger = clock.firstOf w.chain.log ledger ∧
      Shown clock ledger (clock.firstOf w.chain.log ledger) w := by
  have hboth : ledger ≤ clock.ledgerOf w.chain.now ∧
      clock.firstOf w.chain.log w.watch.startLedger = clock.firstOf w.chain.log ledger := by
    rcases h.start hgoes with rfl | ⟨-, hledger, hsame⟩
    · exact ⟨hlatest, rfl⟩
    · exact ⟨hledger, hsame⟩
  refine ⟨hboth.2, hboth.1, le_rfl, clock.firstOf_le _ _,
    h.quiet.trans (eventsOf_nothing _ _ _).symm, ?_⟩
  refine iff_of_false h.phase ?_
  rintro ⟨event, hmem, -⟩
  rw [h.quiet] at hmem
  cases hmem

/-- After an empty page the watch waits on, where nothing was found yet. -/
theorem Waits.empty (h : Waits clock ledger w) (hgoes : goesOn w.watch.phase = true)
    (hlatest : w.watch.startLedger ≤ clock.ledgerOf w.chain.now)
    (hnone : clock.firstOf w.chain.log ledger = w.chain.log.length) {found : EventPage}
    (hempty : found.events = []) (hcursor : found.cursor = none) :
    Waits clock ledger { w with watch := w.watch.took (clock.ledgerOf w.chain.now) found } := by
  obtain ⟨hsame, hshown⟩ := h.shown hgoes hlatest
  have hstart : w.watch.start ≤ clock.ledgerOf w.chain.now := h.later.trans hlatest
  have htook : w.watch.took (clock.ledgerOf w.chain.now) found =
      { w.watch with start := clock.ledgerOf w.chain.now, phase := .pausing } := by
    rw [JobWatch.took, hempty, hcursor]
    simp [printable, max_eq_right hstart, h.cursor, h.quiet]
  rw [htook]
  refine ⟨h.quiet, h.cursor, by rintro ⟨⟩, le_rfl, fun _ => .inr ⟨le_rfl, hshown.began, ?_⟩⟩
  exact (Sdk.LedgerClock.firstOf_end (hsame.trans hnone) hlatest).trans hnone.symm

/-- The first page that the server has. -/
theorem Waits.took (h : Waits clock ledger w) (hgoes : goesOn w.watch.phase = true)
    (hlatest : w.watch.startLedger ≤ clock.ledgerOf w.chain.now)
    (hsearched : reply.hasCursor = true ∨ reply.count ≠ 0 ∨
      w.watch.position clock w.chain.log = w.chain.log.length) :
    let found := eventPage w.chain.log
      (clock.firstOf w.chain.log w.watch.startLedger) watchLimit reply
    let w' : WatchedJob World := { w with watch := w.watch.took (clock.ledgerOf w.chain.now) found }
    Waits clock ledger w' ∨ ∃ upto, Prints clock ledger upto w' := by
  intro found w'
  obtain ⟨hsame, hshown⟩ := h.shown hgoes hlatest
  have hlength : found.events.length = min (min reply.count watchLimit)
      (w.chain.log.length - clock.firstOf w.chain.log w.watch.startLedger) :=
        eventPage_length _ _ _ _
  by_cases hempty : found.events.length = 0 ∧ reply.hasCursor = false
  · refine .inl (h.empty hgoes hlatest ?_ (List.eq_nil_of_length_eq_zero hempty.1) (if_pos hempty))
    rw [JobWatch.position, h.cursor, Option.getD_none] at hsearched
    have hplace := clock.firstOf_le w.chain.log w.watch.startLedger
    rw [← hsame]
    rcases hsearched with hsent | hcount | hend
    · rw [hempty.2] at hsent
      cases hsent
    · have hlimit : 0 < watchLimit := by decide
      rw [hempty.1] at hlength
      omega
    · exact hend
  · have hcursor : (found.cursor <|> w.watch.cursor) =
        some (clock.firstOf w.chain.log w.watch.startLedger + found.events.length) := by
      have hfound : found.cursor =
          some (clock.firstOf w.chain.log w.watch.startLedger + found.events.length) :=
        if_neg hempty
      rw [hfound]
      rfl
    rw [← hsame] at hshown
    exact .inr (hshown.took h.phase hcursor _)

/-- With a cursor the watch goes on from page to page. -/
theorem Prints.took (h : Prints clock ledger upto w) (hgoes : goesOn w.watch.phase = true)
    (latest : ℕ) : ∃ upto', Prints clock ledger upto'
      { w with watch := w.watch.took latest (eventPage w.chain.log upto watchLimit reply) } := by
  have hphase : w.watch.phase ≠ .returned := by
    intro hreturned
    rw [hreturned] at hgoes
    cases hgoes
  refine h.toShown.took hphase ?_ latest
  rw [h.cursor hgoes]
  by_cases hempty : (eventPage w.chain.log upto watchLimit reply).events.length = 0 ∧
    reply.hasCursor = false
  · have hnone : (eventPage w.chain.log upto watchLimit reply).cursor = none := if_pos hempty
    rw [hnone, hempty.1]
    rfl
  · have hfound : (eventPage w.chain.log upto watchLimit reply).cursor =
        some (upto + (eventPage w.chain.log upto watchLimit reply).events.length) := if_neg hempty
    rw [hfound]
    rfl

/-! ## One step -/

/-- Where a watch begins: at the ledger it was given, or at the latest one when it asked, unless it
had to move on to a later one that the server still had. -/
structure Begins (clock : Sdk.LedgerClock) (given : Option ℕ) (soonest : ℕ) (moves : List ℕ)
    (w : WatchedJob World) (ledger : ℕ) : Prop where
  asked : moves = [] → (∀ ledger' ∈ given, ledger = ledger') ∧ (given = none → soonest ≤ ledger)
  moved : ∀ earliest ∈ moves.getLast?, ledger = earliest + Sdk.retentionMargin
  lost : ∀ earliest ∈ moves, given.getD soonest < earliest
  start : goesOn w.watch.phase = true → given.getD soonest ≤ w.watch.start
  fresh : w.watch.phase = .starting → given = none ∧ moves = [] ∧ w.watch.printed = [] ∧
    w.watch.cursor = none ∧
    soonest ≤ clock.ledgerOf w.chain.now

/-- What holds of a watch beside its registry. -/
def WatchGoes (host : Host World) (clock : Sdk.LedgerClock) (given : Option ℕ) (soonest : ℕ)
    (moves : List ℕ) (w : WatchedJob World) : Prop :=
  Reachable host w.chain ∧ ∃ ledger, Begins clock given soonest moves w ledger ∧
    (Waits clock ledger w ∨ ∃ upto, Prints clock ledger upto w)

variable {given : Option ℕ} {soonest : ℕ} {moves : List ℕ}

/-- A watch that has begun goes on the same way while its start does not go back. -/
theorem Begins.on {watch : JobWatch} (h : Begins clock given soonest moves w ledger)
    (hgoes : goesOn w.watch.phase = true) (hstart : w.watch.start ≤ watch.start)
    (hafter : watch.phase ≠ .starting) : Begins clock given soonest moves { w with watch } ledger :=
  ⟨h.asked, h.moved, h.lost, fun _ => (h.start hgoes).trans hstart,
    fun hphase => absurd hphase hafter⟩

theorem took_start (watch : JobWatch) (latest : ℕ) (found : EventPage) :
    watch.start ≤ (watch.took latest found).start := by
  unfold JobWatch.took
  split
  · exact le_rfl
  · dsimp only
    split
    · exact le_max_left _ _
    · exact le_rfl

theorem took_phase (watch : JobWatch) (latest : ℕ) (found : EventPage) :
    (watch.took latest found).phase = .returned ∨ (watch.took latest found).phase = .pausing := by
  unfold JobWatch.took
  split
  · exact .inl rfl
  · exact .inr rfl

/-- A watch that is over keeps what it has printed. -/
theorem WatchGoes.ends {phase : WatchPhase} (h : WatchGoes host clock given soonest moves w)
    (hbefore : w.watch.phase ≠ .returned) (hafter : phase = .threw ∨ phase = .stopped) :
    WatchGoes host clock given soonest moves { w with watch := { w.watch with phase } } := by
  obtain ⟨hreach, ledger, hbegins, hstate⟩ := h
  obtain ⟨hreturned, hstarting, hlast, hover⟩ :
      phase ≠ .returned ∧ phase ≠ .starting ∧ (∀ later, phase ≠ .retrying later) ∧
        goesOn phase ≠ true := by
    rcases hafter with rfl | rfl
    · exact ⟨nofun, nofun, nofun, nofun⟩
    · exact ⟨nofun, nofun, nofun, nofun⟩
  have hbegins' : Begins clock given soonest moves { w with
      watch := { w.watch with phase } } ledger :=
    ⟨hbegins.asked, hbegins.moved, hbegins.lost, fun hgoes => absurd hgoes hover,
      fun hphase => absurd hphase hstarting⟩
  refine ⟨hreach, ledger, hbegins', hstate.imp ?_ ?_⟩
  · intro hwaits
    refine ⟨hwaits.quiet, hwaits.cursor, hreturned, ?_, fun hgoes => absurd hgoes hover⟩
    unfold JobWatch.startLedger
    dsimp only
    cases phase with
    | retrying later => exact absurd rfl (hlast later)
    | _ => exact le_rfl
  · rintro ⟨upto, hprints⟩
    refine ⟨upto, ⟨hprints.began, hprints.from_le, hprints.upto_le, hprints.printed, ?_⟩,
      fun hgoes => absurd hgoes hover⟩
    exact iff_of_false hreturned fun hcancelled => hbefore (hprints.ended.mpr hcancelled)

/-- The next page, if the server has it. -/
theorem WatchGoes.took {found : EventPage} {earliest : ℕ}
    (h : WatchGoes host clock given soonest moves w) (hgoes : goesOn w.watch.phase = true)
    (hfound : w.watch.getEvents clock w.chain.log
      (clock.range w.chain.now earliest) reply = .ok found)
    (hguard : Searched host clock w (.answered earliest reply)) :
    WatchGoes host clock given soonest moves
      { w with watch := w.watch.took (clock.ledgerOf w.chain.now) found } := by
  obtain ⟨hreach, ledger, hbegins, hstate⟩ := h
  have hafter : (w.watch.took (clock.ledgerOf w.chain.now) found).phase ≠ .starting := by
    rcases took_phase w.watch (clock.ledgerOf w.chain.now) found with hphase | hphase
    · rw [hphase]
      exact nofun
    · rw [hphase]
      exact nofun
  refine ⟨hreach, ledger, hbegins.on hgoes (took_start _ _ _) hafter, ?_⟩
  unfold JobWatch.getEvents at hfound
  rcases hstate with hwaits | ⟨upto, hprints⟩
  · rw [hwaits.cursor] at hfound
    dsimp only at hfound
    rw [Sdk.LedgerRange.serve] at hfound
    split at hfound
    next hcovers =>
      obtain rfl := Except.ok.inj hfound
      exact hwaits.took hgoes hcovers.2 hguard
    next => cases hfound
  · rw [hprints.cursor hgoes] at hfound
    obtain rfl := Except.ok.inj hfound
    exact .inr (hprints.took hgoes _)

/-- The first answer says where to begin. -/
theorem WatchGoes.started (h : WatchGoes host clock given soonest moves w)
    (hphase : w.watch.phase = .starting) : WatchGoes host clock given soonest moves
      { w with
        watch := { w.watch with start := clock.ledgerOf w.chain.now, phase := .pausing } } := by
  obtain ⟨hreach, ledger, hbegins, -⟩ := h
  obtain ⟨hnone, hmoves, hprinted, hcursor, hle⟩ := hbegins.fresh hphase
  refine ⟨hreach, clock.ledgerOf w.chain.now, ⟨?_, ?_, ?_, fun _ => ?_, nofun⟩,
    .inl ⟨hprinted, hcursor, nofun, le_rfl, fun _ => .inl rfl⟩⟩
  · intro _
    refine ⟨?_, fun _ => hle⟩
    rw [hnone]
    exact nofun
  · rw [hmoves]
    exact nofun
  · rw [hmoves]
    exact nofun
  · rw [hnone]
    exact hle

/-- A server that no longer has the ledger to begin at moves the watch on. -/
theorem WatchGoes.retried {earliest : ℕ} (h : WatchGoes host clock given soonest moves w)
    (hphase : w.watch.phase = .reading) (hcursor : w.watch.cursor = none)
    (hlost : w.watch.start < earliest) : WatchGoes host clock given soonest (moves ++ [earliest])
      { w with watch := { w.watch with phase := .retrying (earliest + Sdk.retentionMargin) } } := by
  obtain ⟨hreach, ledger, hbegins, hstate⟩ := h
  have hgoes : goesOn w.watch.phase = true := by
    rw [hphase]
    rfl
  have hwaits : Waits clock ledger w := by
    refine hstate.resolve_right ?_
    rintro ⟨upto, hprints⟩
    have hplace := hprints.cursor hgoes
    rw [hcursor] at hplace
    cases hplace
  have hstart := hbegins.start hgoes
  refine ⟨hreach, earliest + Sdk.retentionMargin, ⟨?_, ?_, ?_, fun _ => hstart, nofun⟩,
    .inl ⟨hwaits.quiet, hcursor, nofun, hlost.le.trans (Nat.le_add_right _ _), fun _ => .inl rfl⟩⟩
  · intro hnone
    exact absurd hnone (List.append_ne_nil_of_right_ne_nil _ (List.cons_ne_nil _ _))
  · intro earliest' hlast
    rw [List.getLast?_concat, Option.mem_some_iff] at hlast
    rw [hlast]
  · intro earliest' hmem
    rcases List.mem_append.mp hmem with hold | hnew
    · exact hbegins.lost earliest' hold
    · rw [List.mem_singleton.mp hnew]
      exact hstart.trans_lt hlost

theorem WatchGoes.registry (h : WatchGoes host clock given soonest moves w)
    (hadm : Admissible host w.chain action) :
    WatchGoes host clock given soonest moves { w with chain := step host w.chain action } := by
  obtain ⟨hreach, ledger, hbegins, hstate⟩ := h
  refine ⟨hreach.step hadm, ledger, ⟨hbegins.asked, hbegins.moved, hbegins.lost, hbegins.start, ?_⟩,
    hstate.imp ?_ ?_⟩
  · intro hphase
    obtain ⟨hnone, hmoves, hprinted, hcursor, hle⟩ := hbegins.fresh hphase
    exact ⟨hnone, hmoves, hprinted, hcursor, hle.trans (ledgerOf_step hreach action)⟩
  · exact fun hwaits => hwaits.registry hreach hadm
  · rintro ⟨upto, hprints⟩
    exact ⟨upto, hprints.toShown.registry hreach hadm, hprints.cursor⟩

/-- What an answer does. -/
inductive JobWatch.Answered (clock : Sdk.LedgerClock) (watch : JobWatch)
    (log : List (Timestamp × Event))
    (range : Sdk.LedgerRange) (reply : Reply) : List ℕ → JobWatch → Prop
  | started (hphase : watch.phase = .starting) :
      JobWatch.Answered clock watch log range reply [] { watch with
        start := range.latest, phase := .pausing }
  | took {found : EventPage} (hgoes : goesOn watch.phase = true)
      (hfound : watch.getEvents clock log range reply = .ok found) :
      JobWatch.Answered clock watch log range reply [] (watch.took range.latest found)
  | retried (hphase : watch.phase = .reading) (hcursor : watch.cursor = none)
      (hlost : watch.start < range.earliest) :
      JobWatch.Answered clock watch log range reply [range.earliest]
        { watch with phase := .retrying (range.earliest + Sdk.retentionMargin) }
  | threw (hphase : watch.phase ≠ .returned) :
      JobWatch.Answered clock watch log range reply [] { watch with phase := .threw }
  | none : JobWatch.Answered clock watch log range reply [] watch

end Watch

end SoroCron.KeeperBot
