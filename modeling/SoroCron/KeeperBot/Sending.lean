import SoroCron.KeeperBot.Channels
import SoroCron.KeeperBot.Tries

/-! # A tick over the channels

Each batch of a tick is a task of the channel pool: it is tried, in parts if need be, once it has
a channel, and gives the channel back when nothing of it is left. However the tasks take turns
and whatever the client answers, the tick ends and accounts for every due job.
-/

namespace SoroCron.KeeperBot

variable {View C : Type}

/-- A tick under way and the pool that its batches share; task `i` works through queue `i`. -/
structure Sending (C : Type) where
  pool : ChannelPool C
  tick : Tick

inductive SendAction (View : Type) where
  | start (queue : ℕ)
  /-- The next try of a queue, as the client answers it. -/
  | turn (turn : Turn View)
  /-- Nothing is left of a queue. -/
  | completes (queue : ℕ)
  | finish (queue : ℕ)

/-- A try that was made: the batch, what the client answered and the parts left to try. -/
structure Try (View : Type) where
  batch : List DueJob
  answers : Answers View
  parts : List (List DueJob)

namespace Try

def ids (t : Try View) : List JobId := t.batch.map DueJob.id

def calls (deps : TickDeps) (t : Try View) : List (ClientCall View) :=
  tryCalls deps t.answers t.batch

def submissions (deps : TickDeps) (t : Try View) : List (Submission View) :=
  (t.calls deps).filterMap ClientCall.submission?

end Try

namespace Sending

/-- All batches of a tick ask for a channel at once. -/
def start (deps : TickDeps) (quarantine : Option Quarantine) (allDue : List DueJob)
    (channels : List C) : Sending C :=
  let tick := Tick.start deps quarantine allDue
  { pool := (pools C).run { free := channels } (List.replicate tick.queues.length .run), tick }

/-- The tick returns when all its tasks have settled. -/
def Finished (sending : Sending C) : Prop := ∀ phase ∈ sending.pool.tasks, phase = .done

instance [DecidableEq C] (sending : Sending C) : Decidable sending.Finished :=
  inferInstanceAs (Decidable (∀ phase ∈ sending.pool.tasks, phase = .done))

/-- Whether the task of a queue has its channel and works. -/
def works (sending : Sending C) (queue : ℕ) : Bool :=
  match sending.pool.tasks[queue]? with
  | some (.running _) => true
  | _ => false

def step (deps : TickDeps) (sending : Sending C) : SendAction View → Sending C
  | .start queue => { sending with pool := sending.pool.step (.start queue) }
  | .turn turn =>
      if sending.works turn.queue then
        { sending with tick := (ticks View deps).step sending.tick turn }
      else sending
  | .completes queue =>
      match sending.tick.queues[queue]? with
      | some [] => { sending with pool := sending.pool.step (.completes queue) }
      | _ => sending
  | .finish queue => { sending with pool := sending.pool.step (.finish queue) }

/-- The try that an action makes. -/
def tries (deps : TickDeps) (sending : Sending C) : SendAction View → List (Try View)
  | .turn turn =>
      if sending.works turn.queue then
        match sending.tick.queues[turn.queue]? with
        | some (batch :: _) =>
            [{ batch, answers := turn.answers,
               parts := (runBatch deps turn.answers batch sending.tick.state).next }]
        | _ => []
      else []
  | _ => []

/-- The ids left to try, batch by batch. -/
def left (sending : Sending C) : List (List JobId) :=
  sending.tick.queues.flatten.map (List.map DueJob.id)

end Sending

def sendings (View C : Type) (deps : TickDeps) :
    Machine (Sending C) (SendAction View) (Try View) where
  step := Sending.step deps
  out := Sending.tries deps

/-! ## Steps -/

namespace Sending

variable {deps : TickDeps} {sending : Sending C}

/-- A turn of a task that works, with a batch to try. -/
theorem step_turn {turn : Turn View} {batch : List DueJob} {rest : List (List DueJob)}
    (hworks : sending.works turn.queue = true)
    (hqueue : sending.tick.queues[turn.queue]? = some (batch :: rest)) :
    let tried := runBatch deps turn.answers batch sending.tick.state
    sending.step deps (.turn turn) =
        { sending with
          tick :=
            { state := tried.state
              queues := sending.tick.queues.set turn.queue (tried.next ++ rest) } } ∧
      sending.tries deps (.turn turn) =
        [{ batch, answers := turn.answers, parts := tried.next }] := by
  simp only [step, tries, hworks, if_true, ticks, hqueue, and_self]

/-- Other actions, and turns that have nothing to try, leave the batches as they are. -/
theorem step_of_not_turn {action : SendAction View}
    (hnot : ∀ turn batch rest, action = .turn turn → sending.works turn.queue = true →
      sending.tick.queues[turn.queue]? ≠ some (batch :: rest)) :
    (sending.step deps action).tick = sending.tick ∧ sending.tries deps action = [] := by
  cases action with
  | start queue | finish queue => exact ⟨rfl, rfl⟩
  | completes queue =>
      simp only [step]
      split <;> exact ⟨rfl, rfl⟩
  | turn turn =>
      simp only [step, tries]
      split
      next hworks =>
        cases hqueue : sending.tick.queues[turn.queue]? with
        | none => simp only [ticks, hqueue, and_self]
        | some queue =>
            cases queue with
            | nil => simp only [ticks, hqueue, and_self]
            | cons batch rest => exact absurd hqueue (hnot turn batch rest rfl hworks)
      next => exact ⟨rfl, rfl⟩

theorem step_cases (deps : TickDeps) (sending : Sending C) (action : SendAction View) :
    (∃ turn batch rest, action = .turn turn ∧ sending.works turn.queue = true ∧
      sending.tick.queues[turn.queue]? = some (batch :: rest)) ∨
    ((sending.step deps action).tick = sending.tick ∧ sending.tries deps action = []) := by
  by_cases hturn : ∃ turn batch rest, action = .turn turn ∧ sending.works turn.queue = true ∧
      sending.tick.queues[turn.queue]? = some (batch :: rest)
  · exact .inl hturn
  · refine .inr (step_of_not_turn ?_)
    intro turn batch rest haction hworks hqueue
    exact hturn ⟨turn, batch, rest, haction, hworks, hqueue⟩

/-- The queues together are a work list. -/
theorem sendings_work (deps : TickDeps) :
    Worklist.Works (sendings View C deps) (fun _ _ => True) left Try.ids
      (fun t => t.parts.map (List.map DueJob.id)) := by
  intro sending action _
  rcases step_cases deps sending action with ⟨turn, batch, rest, rfl, hworks, hqueue⟩ |
    ⟨hsame, hnone⟩
  · refine .inr ⟨_, (step_turn hworks hqueue).2, ?_, runBatch_divides.map DueJob.id⟩
    change Worklist.Takes _ _ _ (left (sending.step deps (.turn turn)))
    rw [(step_turn hworks hqueue).1]
    exact (Worklist.takes_of_head hqueue _).map DueJob.id
  · exact .inl ⟨hnone, congrArg (fun tick => tick.queues.flatten.map (List.map DueJob.id)) hsame⟩

/-! ## Accounting -/

/-- The counters account for every due job that is not left in a queue. -/
def Accounts (due : ℕ) (sending : Sending C) : Prop :=
  sending.tick.state.summary.due = due ∧
    sending.tick.state.summary.accounted + sending.tick.queues.flatten.flatten.length = due

theorem accounts_step {due : ℕ} (action : SendAction View) (h : Accounts due sending) :
    Accounts due (sending.step deps action) := by
  obtain ⟨hdue, haccounted⟩ := h
  unfold Accounts
  rcases step_cases deps sending action with ⟨turn, batch, rest, rfl, hworks, hqueue⟩ | ⟨hsame, -⟩
  · rw [(step_turn hworks hqueue).1]
    obtain ⟨hsame, hcounted⟩ := runBatch_accounts deps turn.answers batch sending.tick.state
    have hlength :=
      (Worklist.takes_of_head hqueue
      (runBatch deps turn.answers batch sending.tick.state).next).length
    refine ⟨hsame.trans hdue, ?_⟩
    dsimp only
    omega
  · rw [hsame]
    exact ⟨hdue, haccounted⟩

theorem start_items {deps : TickDeps} (hsize : 1 ≤ deps.batchSize) (quarantine : Option Quarantine)
    (allDue : List DueJob) :
    (Tick.start deps quarantine allDue).queues.flatten.flatten =
      allDue.filter fun job => !(quarantine.map Quarantine.next).any (·.has job.id) := by
  change ((Worklist.slices deps.batchSize _).map fun batch => [batch]).flatten.flatten = _
  rw [Worklist.flatten_singles, Worklist.flatten_slices hsize]

theorem start_fresh {deps : TickDeps} (hsize : 1 ≤ deps.batchSize) (quarantine : Option Quarantine)
    {allDue : List DueJob} (hdistinct : (allDue.map DueJob.id).Nodup) (channels : List C) :
    Worklist.Fresh (start deps quarantine allDue channels).left := by
  constructor
  case batch_ne =>
    intro ids hids
    obtain ⟨batch, hbatch, rfl⟩ := List.mem_map.mp hids
    change batch ∈ ((Worklist.slices deps.batchSize _).map fun batch => [batch]).flatten at hbatch
    rw [Worklist.flatten_singles] at hbatch
    exact fun hnil => (Worklist.mem_slices hsize hbatch).1 (List.map_eq_nil_iff.mp hnil)
  case distinct =>
    rw [left, ← List.map_flatten]
    change (((Tick.start deps quarantine allDue).queues.flatten.flatten).map DueJob.id).Nodup
    rw [start_items hsize]
    exact hdistinct.sublist (List.filter_sublist.map _)

theorem start_accounts {deps : TickDeps} (hsize : 1 ≤ deps.batchSize)
    (quarantine : Option Quarantine) (allDue : List DueJob) (channels : List C) :
    Accounts allDue.length (start deps quarantine allDue channels) := by
  refine ⟨rfl, ?_⟩
  change (Tick.start deps quarantine allDue).state.summary.accounted +
    (Tick.start deps quarantine allDue).queues.flatten.flatten.length = _
  rw [start_items hsize]
  have hle := List.length_filter_le
    (fun job => !(quarantine.map Quarantine.next).any (·.has job.id)) allDue
  change 0 + (allDue.length - (allDue.filter _).length) + 0 + 0 + 0 + _ = _
  omega

/-! ## Progress -/

end Sending

/-- How many steps a call of `run` is away from its end, its work apart. -/
def Phase.ahead : Phase C → ℕ
  | .waiting | .granted _ => 3
  | .running _ => 2
  | .settled _ => 1
  | .done => 0

/-- The task has nothing left to do but to give its channel back. -/
def Phase.ended : Phase C → Bool
  | .settled _ | .done => true
  | _ => false

theorem sum_map_set {α : Type} {f : α → ℕ} {entries : List α} {i : ℕ} {old : α} (new : α)
    (hold : entries[i]? = some old) :
    ((entries.set i new).map f).sum + f old = (entries.map f).sum + f new := by
  induction entries generalizing i with
  | nil => cases hold
  | cons first rest ih =>
      cases i with
      | zero =>
          cases hold
          rw [List.set_cons_zero, List.map_cons, List.map_cons, List.sum_cons, List.sum_cons]
          omega
      | succ i =>
          have hrest := ih ((List.getElem?_cons_succ).symm.trans hold)
          rw [List.set_cons_succ, List.map_cons, List.map_cons, List.sum_cons, List.sum_cons]
          omega

namespace Sending

variable {deps : TickDeps} {sending : Sending C}

/-- The channels are shared fairly, each queue has its task, and a task ends when its queue does. -/
structure Sound (channels : List C) (sending : Sending C) : Prop where
  fair : ∃ served, ChannelPool.Fair channels served sending.pool
  size : sending.pool.tasks.length = sending.tick.queues.length
  ended : ∀ (i : ℕ) phase, sending.pool.tasks[i]? = some phase → phase.ended = true →
    sending.tick.queues[i]? = some []

/-- What is left to do, in steps. -/
def ahead (sending : Sending C) : ℕ :=
  Worklist.weight sending.left + (sending.pool.tasks.map Phase.ahead).sum

/-- What an action that finds its task in the right phase does. -/
inductive Move (deps : TickDeps) (sending : Sending C) : SendAction View → Sending C → Prop where
  | started {i : ℕ} {channel : C} (htask : sending.pool.tasks[i]? = some (.granted channel)) :
      Move deps sending (.start i)
        { sending with
          pool := { sending.pool with tasks := sending.pool.tasks.set i (.running channel) } }
  | tried {turn : Turn View} {batch : List DueJob} {rest : List (List DueJob)}
      (hworks : sending.works turn.queue = true)
      (hqueue : sending.tick.queues[turn.queue]? = some (batch :: rest)) :
      Move deps sending (.turn turn)
        { sending with tick :=
          { state := (runBatch deps turn.answers batch sending.tick.state).state
            queues := sending.tick.queues.set turn.queue
              ((runBatch deps turn.answers batch sending.tick.state).next ++ rest) } }
  | completed {i : ℕ} {channel : C} (htask : sending.pool.tasks[i]? = some (.running channel))
      (hqueue : sending.tick.queues[i]? = some []) :
      Move deps sending (.completes i)
        { sending with
          pool := { sending.pool with tasks := sending.pool.tasks.set i (.settled channel) } }
  | handedOver {i next : ℕ} {rest : List ℕ} {channel : C}
      (htask : sending.pool.tasks[i]? = some (.settled channel))
        (hwaiting : sending.pool.waiting = next :: rest) :
      Move deps sending (.finish i)
        { sending with pool := { sending.pool with
          waiting := rest
          tasks := (sending.pool.tasks.set i .done).set next (.granted channel) } }
  | freed {i : ℕ} {channel : C} (htask : sending.pool.tasks[i]? = some (.settled channel))
      (hwaiting : sending.pool.waiting = []) :
      Move deps sending (.finish i)
        { sending with pool := { sending.pool with
          free := sending.pool.free ++ [channel]
          tasks := sending.pool.tasks.set i .done } }

theorem step_move (deps : TickDeps) (sending : Sending C) (action : SendAction View) :
    Move deps sending action (sending.step deps action) ∨ sending.step deps action = sending := by
  cases action with
  | start i =>
      simp only [step, ChannelPool.step]
      split
      next channel htask => exact .inl (.started htask)
      next => exact .inr rfl
  | turn turn =>
      rcases step_cases deps sending (.turn turn) with ⟨turn', batch, rest, hturn, hworks, hqueue⟩ |
        ⟨hsame, -⟩
      · cases hturn
        rw [(step_turn hworks hqueue).1]
        exact .inl (.tried hworks hqueue)
      · right
        simp only [step] at hsame ⊢
        split at hsame
        next hworks =>
          rw [if_pos hworks]
          exact congrArg (fun tick => { sending with tick }) hsame
        next hidle => rw [if_neg hidle]
  | completes i =>
      simp only [step]
      split
      next hqueue =>
        simp only [ChannelPool.step]
        split
        next channel htask => exact .inl (.completed htask hqueue)
        next => exact .inr rfl
      next => exact .inr rfl
  | finish i =>
      simp only [step, ChannelPool.step]
      split
      next channel htask =>
        cases hwaiting : sending.pool.waiting with
        | nil =>
            have hfreed : Move deps sending (SendAction.finish i : SendAction View) _ :=
              .freed htask hwaiting
            refine .inl ?_
            simpa only [ChannelPool.release, hwaiting] using hfreed
        | cons next rest =>
            simp only [ChannelPool.release]
            exact .inl (.handedOver htask hwaiting)
      next => exact .inr rfl

/-! ### Soundness -/

section

variable {tasks : List (Phase C)} {queues : List (List (List DueJob))} {i : ℕ} {new : Phase C}

theorem ended_set (hended : ∀ (j : ℕ) phase, tasks[j]? = some phase → phase.ended = true →
      queues[j]? = some [])
    (hnew : new.ended = true → queues[i]? = some []) :
    ∀ (j : ℕ) phase, (tasks.set i new)[j]? = some phase → phase.ended = true →
      queues[j]? = some [] := by
  intro j phase hphase hdone
  rw [List.getElem?_set] at hphase
  split at hphase
  next heq =>
    split at hphase
    · cases hphase
      exact heq ▸ hnew hdone
    · cases hphase
  next => exact hended j phase hphase hdone

end

theorem works_iff {queue : ℕ} :
    sending.works queue = true ↔
      ∃ channel, sending.pool.tasks[queue]? = some (.running channel) := by
  unfold works
  split
  next channel htask => exact iff_of_true rfl ⟨channel, htask⟩
  next hnot => exact iff_of_false Bool.false_ne_true fun ⟨channel, htask⟩ => hnot channel htask

/-- Whatever an action does to the pool is an action of the pool. -/
theorem step_pool (deps : TickDeps) (sending : Sending C) (action : SendAction View) :
    (sending.step deps action).pool = sending.pool ∨
      ∃ act, (sending.step deps action).pool = sending.pool.step act := by
  cases action with
  | start i => exact .inr ⟨.start i, rfl⟩
  | finish i => exact .inr ⟨.finish i, rfl⟩
  | turn turn =>
      simp only [step]
      split <;> exact .inl rfl
  | completes i =>
      simp only [step]
      split
      · exact .inr ⟨.completes i, rfl⟩
      · exact .inl rfl

theorem Move.sound {channels : List C} {action : SendAction View} {sending' : Sending C}
    (hmove : Move deps sending action sending')
    (hfair : ∃ served, ChannelPool.Fair channels served sending'.pool)
    (hsound : Sound channels sending) : Sound channels sending' := by
  refine ⟨hfair, ?_, ?_⟩
  · have hsize := hsound.size
    cases hmove <;> simpa using hsize
  · have hended := hsound.ended
    cases hmove with
    | started htask => exact ended_set hended nofun
    | completed htask hqueue => exact ended_set hended fun _ => hqueue
    | handedOver htask hwaiting =>
        exact ended_set (ended_set hended fun _ => hended _ _ htask rfl) nofun
    | freed htask hwaiting => exact ended_set hended fun _ => hended _ _ htask rfl
    | @tried turn batch rest hworks hqueue =>
        intro j phase hphase hdone
        have hempty := hended j phase hphase hdone
        have hother : turn.queue ≠ j := by
          rintro rfl
          rw [hqueue] at hempty
          cases hempty
        rwa [List.getElem?_set_ne hother]

theorem sound_step {channels : List C} (action : SendAction View)
    (hsound : Sound channels sending) : Sound channels (sending.step deps action) := by
  rcases step_move deps sending action with hmove | hsame
  · refine hmove.sound ?_ hsound
    obtain ⟨served, hfair⟩ := hsound.fair
    rcases step_pool deps sending action with hpool | ⟨act, hact⟩
    · exact ⟨served, hpool ▸ hfair⟩
    · exact ⟨_, hact ▸ (ChannelPool.step_change sending.pool act).fair hfair⟩
  · exact hsame.symm ▸ hsound

/-- Calls of `run` that nothing else has happened to. -/
theorem runs_tasks (pool : ChannelPool C) (n : ℕ) :
    ((pools C).run pool (List.replicate n .run)).tasks.length = pool.tasks.length + n ∧
      ((∀ phase ∈ pool.tasks, phase.ahead = 3) →
        ∀ phase ∈ ((pools C).run pool (List.replicate n .run)).tasks, phase.ahead = 3) := by
  induction n generalizing pool with
  | zero => exact ⟨rfl, id⟩
  | succ n ih =>
      obtain ⟨phase, hahead, htasks⟩ : ∃ phase : Phase C, phase.ahead = 3 ∧
          ((pools C).step pool .run).tasks = pool.tasks ++ [phase] := by
        simp only [pools, ChannelPool.step, ChannelPool.acquire]
        split
        next channel _ => exact ⟨.granted channel, rfl, rfl⟩
        next => exact ⟨.waiting, rfl, rfl⟩
      obtain ⟨hlength, hall⟩ := ih ((pools C).step pool .run)
      rw [htasks] at hlength hall
      rw [List.replicate_succ, Machine.run_cons]
      refine ⟨?_, fun hpool => hall ?_⟩
      · rw [hlength, List.length_append, List.length_singleton]
        omega
      · intro other hother
        rcases List.mem_append.mp hother with hold | hnew
        · exact hpool other hold
        · exact List.mem_singleton.mp hnew ▸ hahead

theorem start_tasks (deps : TickDeps) (quarantine : Option Quarantine) (allDue : List DueJob)
    (channels : List C) : (start deps quarantine allDue channels).pool.tasks.length =
        (start deps quarantine allDue channels).tick.queues.length ∧
      ∀ phase ∈ (start deps quarantine allDue channels).pool.tasks, phase.ahead = 3 := by
  obtain ⟨hlength, hall⟩ :=
    runs_tasks ({ free := channels } : ChannelPool C)
      (Tick.start deps quarantine allDue).queues.length
  exact ⟨hlength.trans (Nat.zero_add _), hall nofun⟩

theorem start_sound (deps : TickDeps) (quarantine : Option Quarantine) (allDue : List DueJob)
    {channels : List C}
    (hsome : channels ≠ []) : Sound channels (start deps quarantine allDue channels) := by
  have hnew : ChannelPool.new channels = some { free := channels } := by
    rw [ChannelPool.new, if_neg fun hnone => hsome (List.length_eq_zero_iff.mp hnone)]
  obtain ⟨hlength, hall⟩ := start_tasks deps quarantine allDue channels
  refine ⟨⟨_, ChannelPool.run_fair hnew _⟩, hlength, ?_⟩
  intro i phase hphase hended
  have hahead := hall phase (List.mem_of_getElem? hphase)
  cases phase <;> simp [Phase.ahead, Phase.ended] at hahead hended

/-! ### Every move leaves less to do -/

theorem Move.ahead_lt {channels : List C} {action : SendAction View} {sending' : Sending C}
    (hmove : Move deps sending action sending') (hsound : Sound channels sending)
    (hfresh : Worklist.Fresh sending.left) : sending'.ahead < sending.ahead := by
  unfold ahead
  cases hmove with
  | @started i channel htask =>
      have hsum := sum_map_set (f := Phase.ahead) (.running channel) htask
      simp only [Phase.ahead] at hsum
      refine Nat.add_lt_add_left ?_ _
      dsimp only
      omega
  | @completed i channel htask hqueue =>
      have hsum := sum_map_set (f := Phase.ahead) (.settled channel) htask
      simp only [Phase.ahead] at hsum
      refine Nat.add_lt_add_left ?_ _
      dsimp only
      omega
  | @freed i channel htask hwaiting =>
      have hsum := sum_map_set (f := Phase.ahead) .done htask
      simp only [Phase.ahead] at hsum
      refine Nat.add_lt_add_left ?_ _
      dsimp only
      omega
  | @handedOver i next rest channel htask hwaiting =>
      obtain ⟨served, hfair⟩ := hsound.fair
      have hnext := (hfair.waits next).mp (by rw [hwaiting]; exact List.mem_cons_self)
      have hother : i ≠ next := by
        rintro rfl
        rw [htask] at hnext
        cases hnext
      have hkept : (sending.pool.tasks.set i .done)[next]? = some .waiting := by
        rwa [List.getElem?_set_ne hother]
      have hsum := sum_map_set (f := Phase.ahead) .done htask
      have hgranted := sum_map_set (f := Phase.ahead) (.granted channel) hkept
      simp only [Phase.ahead] at hsum hgranted
      refine Nat.add_lt_add_left ?_ _
      dsimp only
      omega
  | @tried turn batch rest hworks hqueue =>
      refine Nat.add_lt_add_right ?_ _
      have htakes :=
        (Worklist.takes_of_head hqueue
        (runBatch deps turn.answers batch sending.tick.state).next).map DueJob.id
      exact htakes.weight_lt (runBatch_divides.map DueJob.id) hfresh

/-- While the tick has not finished, something can happen. -/
theorem Sound.progress {channels : List C} (hsome : channels ≠ []) (hsound : Sound channels sending)
    (hfresh : Worklist.Fresh sending.left)
    (hstuck : ∀ action : SendAction View, sending.step deps action = sending) :
    sending.Finished := by
  have hcannot : ∀ {action : SendAction View} {sending' : Sending C},
      Move deps sending action sending' →
      sending.step deps action ≠ sending' := by
    rintro action sending' hmove rfl
    have hless := hmove.ahead_lt hsound hfresh
    rw [hstuck] at hless
    exact Nat.lt_irrefl _ hless
  obtain ⟨served, hfair⟩ := hsound.fair
  intro phase hphase
  by_contra hunfinished
  obtain ⟨i, htask⟩ := List.mem_iff_getElem?.mp hphase
  -- A task that waits does so for one that holds a channel.
  have hholder : ∃ j channel, sending.pool.Holds j channel := by
    cases phase with
    | waiting => exact (hfair.holder_of_waiting hsome htask).2
    | granted channel | running channel | settled channel => exact ⟨i, channel, _, htask, rfl⟩
    | done => exact absurd rfl hunfinished
  obtain ⟨j, channel, phase, htask, hchannel⟩ := hholder
  cases phase with
  | waiting | done => cases hchannel
  | granted channel => exact hcannot (.started htask) (by simp only [step, ChannelPool.step, htask])
  | settled channel =>
      cases hwaiting : sending.pool.waiting with
      | nil =>
          exact hcannot (.freed htask hwaiting)
            (by simp only [step, ChannelPool.step, ChannelPool.release, htask, hwaiting])
      | cons next rest =>
          exact hcannot (.handedOver htask hwaiting)
            (by simp only [step, ChannelPool.step, ChannelPool.release, htask, hwaiting])
  | running channel =>
      have hlt : j < sending.tick.queues.length :=
        hsound.size ▸ (List.getElem?_eq_some_iff.mp htask).1
      cases hqueue : sending.tick.queues[j]? with
      | none => exact absurd hqueue (by simpa using hlt)
      | some queue =>
          cases queue with
          | nil => exact hcannot (.completed htask hqueue) (by simp only [step, ChannelPool.step,
              htask, hqueue])
          | cons batch rest =>
              let silent : Answers View :=
                ⟨0, .error .other, .ok (), .error .other, .error .other, .error .other,
                .error .other⟩
              have hworks := works_iff.mpr ⟨channel, htask⟩
              have htried : Move deps sending (.turn ⟨j, silent⟩) _ := .tried hworks hqueue
              exact hcannot htried (step_turn hworks hqueue).1

theorem ahead_run {channels : List C} {actions : List (SendAction View)}
    (hsound : Sound channels sending) (hfresh : Worklist.Fresh sending.left)
    (hmoves : (sendings View C deps).Along
      (fun sending action => sending.step deps action ≠ sending) sending actions) :
    actions.length ≤ sending.ahead := by
  induction actions generalizing sending with
  | nil => exact Nat.zero_le _
  | cons action rest ih =>
      obtain ⟨hmoves, hrest⟩ := hmoves
      have hless : (sending.step deps action).ahead < sending.ahead := by
        rcases step_move deps sending action with hmove | hsame
        · exact hmove.ahead_lt hsound hfresh
        · exact absurd hsame hmoves
      have hbound := ih (sound_step action hsound)
        ((sendings_work deps).fresh_step hfresh trivial) hrest
      rw [List.length_cons]
      change rest.length ≤ (sending.step deps action).ahead at hbound
      omega

/-! ## A whole tick -/

/-- What a tick sends over its channels is what its batches send in some order of turns. -/
theorem sending_ticks (deps : TickDeps) (sending : Sending C) (actions : List (SendAction View)) :
    ∃ turns, ((sendings View C deps).run sending actions).tick =
      (ticks View deps).run sending.tick turns ∧
      ((sendings View C deps).outputs sending actions).flatMap (Try.submissions deps) =
        (ticks View deps).outputs sending.tick turns := by
  induction actions generalizing sending with
  | nil => exact ⟨[], rfl, rfl⟩
  | cons action rest ih =>
      obtain ⟨turns, htick, hsent⟩ := ih (sending.step deps action)
      rw [Machine.run_cons, Machine.outputs_cons, List.flatMap_append]
      rcases step_cases deps sending action with ⟨turn, batch, others, rfl, hworks, hqueue⟩ |
        ⟨hsame, hnone⟩
      · have hstep : (sending.step deps (.turn turn)).tick =
            (ticks View deps).step sending.tick turn := by
          simp only [step, hworks, if_true]
        have htries : (sendings View C deps).out sending (.turn turn) = _ :=
          (step_turn hworks hqueue).2
        have hout : (ticks View deps).out sending.tick turn =
            (runBatch deps turn.answers batch sending.tick.state).submitted := by
          simp only [ticks, hqueue]
        rw [hstep] at htick hsent
        refine ⟨turn :: turns, htick, ?_⟩
        rw [Machine.outputs_cons, ← hsent, hout, htries, List.flatMap_singleton,
          ← submissions_tryCalls deps turn.answers batch sending.tick.state]
        rfl
      · rw [hsame] at htick hsent
        have hnothing : (sendings View C deps).out sending action = [] := hnone
        refine ⟨turns, htick, ?_⟩
        rw [hnothing]
        exact hsent

/-- Nothing of a batch that was submitted is left to try. -/
theorem parts_of_submissions {deps : TickDeps} (sending : Sending C)
    (actions : List (SendAction View)) :
    ∀ t ∈ (sendings View C deps).outputs sending actions, t.submissions deps ≠ [] →
      t.parts = [] := by
  refine Machine.outputs_forall (I := fun _ => True) (fun _ _ _ _ => trivial) ?_ trivial
    (Machine.along_of_forall (fun _ _ => trivial) sending actions)
  intro now action _ _ t ht hsent
  rcases step_cases deps now action with ⟨turn, batch, rest, rfl, hworks, hqueue⟩ | ⟨-, hnone⟩
  · change t ∈ now.tries deps (.turn turn) at ht
    rw [(step_turn hworks hqueue).2] at ht
    cases List.mem_singleton.mp ht
    refine runBatch_sends_all ?_
    rwa [← submissions_tryCalls]
  · change t ∈ now.tries deps action at ht
    rw [hnone] at ht
    cases ht

theorem simulations_le (deps : TickDeps) (tries : List (Try View)) :
    (tries.flatMap (Try.calls deps)).countP ClientCall.isSimulation ≤ 3 * tries.length := by
  induction tries with
  | nil => exact Nat.le_refl 0
  | cons t rest ih =>
      have hfirst := simulations_tryCalls deps t.answers t.batch
      rw [List.flatMap_cons, List.countP_append, List.length_cons]
      change (tryCalls deps t.answers t.batch).countP _ + _ ≤ _
      omega

/-- A try submits its batch once, or once more after a stale sequence number. -/
theorem submissions_once (deps : TickDeps) (t : Try View) :
    (∀ s ∈ t.submissions deps, s.ids = t.ids) ∧
      ((t.submissions deps).length ≤ 1 ∨
        (t.submissions deps).length = 2 ∧ t.answers.send = .error .staleSequence) := by
  unfold Try.submissions Try.calls
  rcases tryCalls_cases deps t.answers t.batch with hcalls | ⟨prepared, -, hcalls⟩
  · rw [hcalls, submissions_prepareCalls]
    exact ⟨nofun, .inl (Nat.zero_le 1)⟩
  · rw [hcalls, List.filterMap_append, submissions_prepareCalls, List.nil_append,
      submissions_sendCalls]
    rcases sendCalls_cases t.answers (t.batch.map DueJob.id) prepared with
      ⟨-, hsent⟩ | ⟨hstale, ⟨-, hsent⟩ | ⟨rebuilt, -, hsent⟩⟩
    · rw [hsent]
      exact ⟨fun s hs => List.mem_singleton.mp hs ▸ rfl, .inl (Nat.le_refl 1)⟩
    · rw [hsent]
      exact ⟨fun s hs => List.mem_singleton.mp hs ▸ rfl, .inl (Nat.le_refl 1)⟩
    · rw [hsent]
      refine ⟨?_, .inr ⟨rfl, hstale⟩⟩
      intro s hs
      rcases List.mem_cons.mp hs with rfl | hlast
      · rfl
      · exact List.mem_singleton.mp hlast ▸ rfl

theorem Finished.left_eq_nil {channels : List C} (hfinished : sending.Finished)
    (hsound : Sound channels sending) : sending.tick.queues.flatten = [] := by
  rw [List.flatten_eq_nil_iff]
  intro queue hqueue
  obtain ⟨i, hi⟩ := List.mem_iff_getElem?.mp hqueue
  have hlt : i < sending.pool.tasks.length := hsound.size ▸ (List.getElem?_eq_some_iff.mp hi).1
  have hdone := hfinished _ (List.getElem_mem hlt)
  have hempty := hsound.ended i .done (List.getElem?_eq_some_iff.mpr ⟨hlt, hdone⟩) rfl
  exact Option.some.inj (hi.symm.trans hempty)

theorem start_ahead {deps : TickDeps} (hsize : 1 ≤ deps.batchSize) (quarantine : Option Quarantine)
    {allDue : List DueJob} (hdistinct : (allDue.map DueJob.id).Nodup) (channels : List C) :
    Worklist.weight (start deps quarantine allDue channels).left ≤ 2 * allDue.length ∧
      (start deps quarantine allDue channels).ahead ≤ 4 * allDue.length := by
  have hfresh := start_fresh hsize quarantine hdistinct channels
  have hweight := Worklist.weight_add_length hfresh.batch_ne
  obtain ⟨hlength, hall⟩ := start_tasks deps quarantine allDue channels
  have hitems : (start deps quarantine allDue channels).left.flatten.length ≤ allDue.length := by
    rw [left, ← List.map_flatten, List.length_map]
    change (Tick.start deps quarantine allDue).queues.flatten.flatten.length ≤ _
    rw [start_items hsize]
    exact List.length_filter_le _ _
  have hbatches : (start deps quarantine allDue channels).left.length =
      (start deps quarantine allDue channels).tick.queues.length := by
    rw [left, List.length_map]
    change ((Worklist.slices deps.batchSize _).map fun batch => [batch]).flatten.length =
      ((Worklist.slices deps.batchSize _).map fun batch => [batch]).length
    rw [Worklist.flatten_singles, List.length_map]
  have hsum : ((start deps quarantine allDue channels).pool.tasks.map Phase.ahead).sum =
      3 * (start deps quarantine allDue channels).pool.tasks.length := by
    rw [List.map_congr_left hall, List.map_const', List.sum_replicate_nat, Nat.mul_comm]
  have hfew := Worklist.length_le_items hfresh.batch_ne
  unfold ahead
  omega

/-- Whatever the client answers and however the batches take turns on the channels, a tick ends,
accounts for every due job, submits no job twice but for a resend after a stale sequence number,
and sends or restores nothing that its options forbid. -/
theorem due_jobs_settled {deps : TickDeps} (hsize : 1 ≤ deps.batchSize)
    (quarantine : Option Quarantine)
    {allDue : List DueJob} (hdistinct : (allDue.map DueJob.id).Nodup) {channels : List C}
    (hsome : channels ≠ []) (actions : List (SendAction View)) :
    let first := start deps quarantine allDue channels
    let last := (sendings View C deps).run first actions
    let tries := (sendings View C deps).outputs first actions
    let summary := last.tick.state.summary
    (((sendings View C deps).Along
        (fun sending action => sending.step deps action ≠ sending) first actions →
        actions.length ≤ 4 * allDue.length) ∧
      ((∀ action : SendAction View, last.step deps action = last) → last.Finished) ∧
      (tries.flatMap (Try.calls deps)).countP ClientCall.isSimulation ≤ 6 * allDue.length) ∧
    (last.Finished → summary.due = allDue.length ∧
      summary.due = summary.executed + summary.skipped + summary.unprofitable + summary.failed +
        summary.dryRun) ∧
    ((∀ t ∈ tries, (∀ s ∈ t.submissions deps, s.ids = t.ids) ∧
        ((t.submissions deps).length ≤ 1 ∨
          (t.submissions deps).length = 2 ∧ t.answers.send = .error .staleSequence)) ∧
      ∀ early t late, tries = early ++ t :: late → t.submissions deps ≠ [] →
        ∀ later ∈ late, ∀ id ∈ t.ids, id ∉ later.ids) ∧
    (deps.dryRun = true → ∀ t ∈ tries, ∀ call ∈ t.calls deps, call.isSimulation = true) ∧
    ∀ t ∈ tries, ∀ fee, ClientCall.restore fee ∈ t.calls deps → fee ≤ deps.maxRestoreFee := by
  intro first last tries summary
  have hfresh : Worklist.Fresh first.left := start_fresh hsize quarantine hdistinct channels
  have hsound : Sound channels first := start_sound deps quarantine allDue hsome
  have halong : (sendings View C deps).Along (fun _ _ => True) first actions :=
    Machine.along_of_forall (fun _ _ => trivial) first actions
  have hlast : Sound channels last :=
    (sendings View C deps).invariant_run (fun _ action h _ => sound_step action h) hsound halong
  obtain ⟨hweight, hahead⟩ :
      Worklist.weight first.left ≤ 2 * allDue.length ∧ first.ahead ≤ 4 * allDue.length :=
    start_ahead hsize quarantine hdistinct channels
  refine ⟨⟨?_, ?_, ?_⟩, ?_, ⟨?_, ?_⟩, ?_, ?_⟩
  · intro hmoves
    exact (ahead_run hsound hfresh hmoves).trans hahead
  · exact hlast.progress hsome ((sendings_work deps).fresh_run hfresh halong)
  · have hbound := (sendings_work deps).bounded hfresh halong
    have hsimulations := simulations_le deps tries
    change tries.length + _ ≤ _ at hbound
    omega
  · intro hfinished
    obtain ⟨hdue, haccounted⟩ : Accounts allDue.length last :=
      (sendings View C deps).invariant_run (fun _ action h _ => accounts_step action h)
        (start_accounts hsize quarantine allDue channels) halong
    rw [hfinished.left_eq_nil hlast] at haccounted
    exact ⟨hdue, hdue.trans haccounted.symm⟩
  · exact fun t _ => submissions_once deps t
  · intro early t late hsplit hsent later hlater id hid
    have ht : t ∈ tries := by
      rw [hsplit]
      exact List.mem_append_right _ List.mem_cons_self
    have hparts := parts_of_submissions first actions t ht hsent
    exact (sendings_work deps).never_again hfresh halong hsplit hid (by simp [hparts]) later hlater
  · exact fun hdry t _ => tryCalls_dryRun hdry t.answers t.batch
  · exact fun t _ fee => tryCalls_restore

/-- Jobs in batches of two, paid in another token; any cost will do. -/
def pairDeps : TickDeps where
  keeper := ⟨7⟩
  batchSize := 2

/-- The simulation fails in a way that belongs to a job of the batch. -/
def stopped : Answers Unit :=
  ⟨100, .error .simulationFailed, .ok (), .error .other, .error .other, .error .other,
    .error .other⟩

/-- These jobs of the batch run, and sending it works. -/
def ran (flags : List Bool) : Answers Unit :=
  ⟨100, .ok ⟨flags, 500, ()⟩, .ok (), .error .other, .ok (), .error .other, .error .other⟩

def threeDue : List DueJob := [⟨1, 40⟩, ⟨2, 40⟩, ⟨3, 40⟩]

/-- Job 2 stops its batch; it is found and set aside while job 3 waits for the only channel. -/
def oneChannel : List (SendAction Unit) :=
  [.start 0, .turn ⟨0, stopped⟩, .turn ⟨0, ran [true]⟩, .turn ⟨0, stopped⟩, .completes 0, .finish 0,
    .start 1, .turn ⟨1, ran [true]⟩, .completes 1, .finish 1]

theorem due_jobs_settled_oneChannel :
    let last := (sendings Unit ℕ pairDeps).run (start pairDeps (some {}) threeDue [0]) oneChannel
    (last.tick.state.summary.executed, last.tick.state.summary.skipped) = (2, 1) ∧
      last.tick.state.summary.due = 3 := by
  intro last
  have hsize : 1 ≤ pairDeps.batchSize := by decide
  have hdistinct : (threeDue.map DueJob.id).Nodup := by decide
  have hsome : [0] ≠ [] := by decide
  have hfinished : last.Finished := by decide
  have hsettled := due_jobs_settled hsize (some {}) hdistinct hsome oneChannel
  exact ⟨by decide, (hsettled.2.1 hfinished).1⟩

end Sending

end SoroCron.KeeperBot
