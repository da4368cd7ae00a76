import Mathlib.Data.List.Perm.Basic
import SoroCron.Foundation.Machine

/-! # Channel accounts

A keeper sends through channel accounts, each of which can carry one transaction at a time.
The pool hands a free channel to each task and queues tasks when all are busy; a task that
has settled, however it ended, gives its channel to the task that has waited longest.
-/

namespace SoroCron.KeeperBot

variable {C : Type}

/-- Where a call of `run` is. -/
inductive Phase (C : Type) where
  | waiting
  /-- The channel is promised; the task has not been called yet. -/
  | granted (channel : C)
  | running (channel : C)
  /-- The task has settled; its channel has not been released yet. -/
  | settled (channel : C)
  | done
  deriving DecidableEq

/-- The channel a call of `run` holds. -/
def Phase.channel : Phase C → Option C
  | .granted channel | .running channel | .settled channel => some channel
  | .waiting | .done => none

/-- A pool and the calls of `run` on it, in the order in which they were made. A call that
waits is known to the pool by its place in that order. -/
structure ChannelPool (C : Type) where
  free : List C
  waiting : List ℕ := []
  tasks : List (Phase C) := []

namespace ChannelPool

/-- A pool needs at least one channel. -/
def new (channels : List C) : Option (ChannelPool C) :=
  if channels.length = 0 then none else some { free := channels }

/-- Channels not currently running a task. -/
def available (pool : ChannelPool C) : ℕ := pool.free.length

/-- The pool and the phase of a new call. Channels are taken from the end of the free ones. -/
def acquire (pool : ChannelPool C) : ChannelPool C × Phase C :=
  match pool.free.getLast? with
  | some channel => ({ pool with free := pool.free.dropLast }, .granted channel)
  | none => ({ pool with waiting := pool.waiting ++ [pool.tasks.length] }, .waiting)

def release (pool : ChannelPool C) (channel : C) : ChannelPool C :=
  match pool.waiting with
  | next :: rest => { pool with waiting := rest, tasks := pool.tasks.set next (.granted channel) }
  | [] => { pool with free := pool.free ++ [channel] }

end ChannelPool

/-- What happens around a pool: a call of `run`, or the next thing in a call under way. -/
inductive PoolAction where
  | run
  | start (task : ℕ)
  | completes (task : ℕ)
  | fails (task : ℕ)
  /-- The `finally` block. -/
  | finish (task : ℕ)

namespace ChannelPool

/-- What does not fit the phase of its task cannot happen and changes nothing. -/
def step (pool : ChannelPool C) : PoolAction → ChannelPool C
  | .run =>
      let (pool', phase) := pool.acquire
      { pool' with tasks := pool'.tasks ++ [phase] }
  | .start task =>
      match pool.tasks[task]? with
      | some (.granted channel) => { pool with tasks := pool.tasks.set task (.running channel) }
      | _ => pool
  | .completes task | .fails task =>
      match pool.tasks[task]? with
      | some (.running channel) => { pool with tasks := pool.tasks.set task (.settled channel) }
      | _ => pool
  | .finish task =>
      match pool.tasks[task]? with
      | some (.settled channel) => { pool with tasks := pool.tasks.set task .done }.release channel
      | _ => pool

/-- The grants of a step: which call gets which channel. -/
def grants (pool : ChannelPool C) : PoolAction → List (ℕ × C)
  | .run => (pool.free.getLast?.map fun channel => (pool.tasks.length, channel)).toList
  | .finish task =>
      match pool.tasks[task]?, pool.waiting with
      | some (.settled channel), next :: _ => [(next, channel)]
      | _, _ => []
  | _ => []

/-- The channels that calls under way hold. -/
def held (pool : ChannelPool C) : List C := pool.tasks.filterMap Phase.channel

end ChannelPool

def pools (C : Type) : Machine (ChannelPool C) PoolAction (ℕ × C) where
  step := ChannelPool.step
  out := ChannelPool.grants

/-! ## Holding a channel -/

section Held

variable {α β : Type} {f : α → Option β}

theorem filterMap_cons_eq (first : α) (rest : List α) :
    (first :: rest).filterMap f = (f first).toList ++ rest.filterMap f := by
  cases h : f first with
  | none => rw [List.filterMap_cons_none h, Option.toList_none, List.nil_append]
  | some b => rw [List.filterMap_cons_some h, Option.toList_some, List.singleton_append]

/-- Replacing an entry trades what the old one contributed for what the new one does. -/
theorem perm_filterMap_set {entries : List α} {i : ℕ} {old : α} (new : α)
    (h : entries[i]? = some old) : ((entries.set i new).filterMap f ++ (f old).toList).Perm
      (entries.filterMap f ++ (f new).toList) := by
  induction entries generalizing i with
  | nil => cases h
  | cons first rest ih =>
      cases i with
      | zero =>
          cases h
          rw [List.set_cons_zero, filterMap_cons_eq, filterMap_cons_eq, List.append_assoc,
            List.append_assoc]
          have hlast : ((f new).toList ++ (rest.filterMap f ++ (f old).toList)).Perm
              (rest.filterMap f ++ (f old).toList ++ (f new).toList) := List.perm_append_comm
          have hswap : (rest.filterMap f ++ (f old).toList ++ (f new).toList).Perm
              ((f old).toList ++ rest.filterMap f ++ (f new).toList) :=
                List.perm_append_comm.append_right _
          rw [← List.append_assoc (f old).toList]
          exact hlast.trans hswap
      | succ i =>
          have hrest := ih ((List.getElem?_cons_succ).symm.trans h)
          rw [List.set_cons_succ, filterMap_cons_eq, filterMap_cons_eq, List.append_assoc,
            List.append_assoc]
          exact hrest.append_left _

/-- What is listed once comes from one entry. -/
theorem index_unique {entries : List α} (hnodup : (entries.filterMap f).Nodup) {i j : ℕ}
    {a a' : α} {b : β} (hi : entries[i]? = some a) (hj : entries[j]? = some a') (ha : f a = some b)
    (ha' : f a' = some b) : i = j := by
  have hpairs := List.pairwise_iff_getElem.mp (List.pairwise_filterMap.mp hnodup)
  obtain ⟨hilt, rfl⟩ := List.getElem?_eq_some_iff.mp hi
  obtain ⟨hjlt, rfl⟩ := List.getElem?_eq_some_iff.mp hj
  rcases Nat.lt_trichotomy i j with hlt | heq | hgt
  · exact absurd rfl (hpairs i j hilt hjlt hlt b ha b ha')
  · exact heq
  · exact absurd rfl (hpairs j i hjlt hilt hgt b ha' b ha)

end Held

/-! ## What a step can do -/

namespace ChannelPool

/-- The pool after a step, and who got a channel in it. -/
inductive Change (pool : ChannelPool C) : ChannelPool C → List (ℕ × C) → Prop where
  | served {front : List C} {channel : C} (hfree : pool.free = front ++ [channel]) :
      Change pool { pool with free := front, tasks := pool.tasks ++ [.granted channel] }
        [(pool.tasks.length, channel)]
  | queued (hfree : pool.free = []) :
      Change pool { pool with
        waiting := pool.waiting ++ [pool.tasks.length]
        tasks := pool.tasks ++ [.waiting] } []
  | moved {task : ℕ} {old new : Phase C} {channel : C} (htask : pool.tasks[task]? = some old)
      (hold : old.channel = some channel) (hnew : new.channel = some channel) :
      Change pool { pool with tasks := pool.tasks.set task new } []
  | handedOver {task next : ℕ} {rest : List ℕ} {channel : C}
      (htask : pool.tasks[task]? = some (.settled channel))
        (hwaiting : pool.waiting = next :: rest) :
      Change pool { pool with
        waiting := rest
        tasks := (pool.tasks.set task .done).set next (.granted channel) } [(next, channel)]
  | freed {task : ℕ} {channel : C} (htask : pool.tasks[task]? = some (.settled channel))
      (hwaiting : pool.waiting = []) :
      Change pool { pool with
        free := pool.free ++ [channel], tasks := pool.tasks.set task .done } []
  | same : Change pool pool []

theorem step_change (pool : ChannelPool C) (action : PoolAction) :
    Change pool (pool.step action) (pool.grants action) := by
  cases action with
  | run =>
      unfold step grants acquire
      cases hlast : pool.free.getLast? with
      | none => exact .queued (List.getLast?_eq_none_iff.mp hlast)
      | some channel =>
          obtain ⟨front, hfree⟩ := List.getLast?_eq_some_iff.mp hlast
          rw [show pool.free.dropLast = front by rw [hfree, List.dropLast_concat]]
          exact .served hfree
  | start task =>
      cases htask : pool.tasks[task]? with
      | none =>
          simp only [step, grants, htask]
          exact .same
      | some phase =>
          cases phase with
          | granted channel =>
              simp only [step, grants, htask]
              exact .moved htask rfl rfl
          | _ =>
              simp only [step, grants, htask]
              exact .same
  | completes task | fails task =>
      cases htask : pool.tasks[task]? with
      | none =>
          simp only [step, grants, htask]
          exact .same
      | some phase =>
          cases phase with
          | running channel =>
              simp only [step, grants, htask]
              exact .moved htask rfl rfl
          | _ =>
              simp only [step, grants, htask]
              exact .same
  | finish task =>
      cases htask : pool.tasks[task]? with
      | none =>
          simp only [step, grants, htask]
          exact .same
      | some phase =>
          cases phase with
          | settled channel =>
              cases hwaiting : pool.waiting with
              | nil =>
                  simp only [step, grants, release, htask, hwaiting]
                  have hfreed := Change.freed htask hwaiting
                  rwa [hwaiting] at hfreed
              | cons next rest =>
                  simp only [step, grants, release, htask, hwaiting]
                  exact .handedOver htask hwaiting
          | _ =>
              simp only [step, grants, htask]
              exact .same

/-! ## Who holds what -/

/-- No channel is lost or doubled, nobody waits without need, and channels went out to
`served` and will go out in the order of the calls. -/
structure Fair (channels : List C) (served : List ℕ) (pool : ChannelPool C) : Prop where
  parts : (pool.free ++ pool.held).Perm channels
  waits : ∀ task, task ∈ pool.waiting ↔ pool.tasks[task]? = some .waiting
  needed : pool.waiting ≠ [] → pool.free = []
  order : served ++ pool.waiting = List.range pool.tasks.length

theorem held_append (pool : ChannelPool C) (phase : Phase C) :
    (pool.tasks ++ [phase]).filterMap Phase.channel = pool.held ++ phase.channel.toList := by
  rw [List.filterMap_append, filterMap_cons_eq, List.filterMap_nil, List.append_nil]
  rfl

/-- A new phase in the place of one of the calls that hold a channel. -/
theorem held_set {pool : ChannelPool C} {task : ℕ} {old : Phase C} {channel : C} (new : Phase C)
    (htask : pool.tasks[task]? = some old) (hold : old.channel = some channel) :
    ((pool.tasks.set task new).filterMap Phase.channel ++ [channel]).Perm
      (pool.held ++ new.channel.toList) := by
  have hset := perm_filterMap_set (f := Phase.channel) new htask
  rwa [hold] at hset

theorem perm_append_last (front held : List C) (channel : C) :
    (front ++ held ++ [channel]).Perm (front ++ [channel] ++ held) := by
  rw [List.append_assoc, List.append_assoc]
  exact List.perm_append_comm.append_left front

/-- A call that does not wait can be added or changed without anybody else waiting. -/
theorem waiting_append {tasks : List (Phase C)} {phase : Phase C} (task : ℕ)
    (hphase : phase ≠ .waiting) :
    (tasks ++ [phase])[task]? = some .waiting ↔ tasks[task]? = some .waiting := by
  rw [List.getElem?_append]
  split
  next => rfl
  next hpast =>
    rw [List.getElem?_eq_none (Nat.not_lt.mp hpast), List.getElem?_singleton]
    split <;> simp [hphase]

theorem waiting_set {tasks : List (Phase C)} {i : ℕ} {old new : Phase C} (task : ℕ)
    (hi : tasks[i]? = some old) (hold : old ≠ .waiting) (hnew : new ≠ .waiting) :
    (tasks.set i new)[task]? = some .waiting ↔ tasks[task]? = some .waiting := by
  rw [List.getElem?_set]
  split
  next heq =>
    rw [← heq, hi]
    split <;> simp [hold, hnew]
  next => rfl

theorem Phase.ne_waiting {phase : Phase C} {channel : C} (h : phase.channel = some channel) :
    phase ≠ .waiting := by
  rintro rfl
  cases h

theorem granted_ne_waiting (channel : C) : Phase.granted channel ≠ .waiting := nofun

theorem Change.fair {channels : List C} {served : List ℕ} {pool pool' : ChannelPool C}
    {out : List (ℕ × C)} (h : Change pool pool' out) (hpool : Fair channels served pool) :
    Fair channels (served ++ out.map Prod.fst) pool' := by
  obtain ⟨hparts, hwaits, hneeded, horder⟩ := hpool
  cases h with
  | @served front channel hfree =>
      have hnobody : pool.waiting = [] := by
        by_contra hwaiting
        simp [hneeded hwaiting] at hfree
      refine ⟨?_, ?_, fun hwaiting => absurd hnobody hwaiting, ?_⟩
      · change (front ++ (pool.tasks ++ [Phase.granted channel]).filterMap Phase.channel).Perm
          channels
        rw [held_append, ← List.append_assoc]
        rw [hfree] at hparts
        exact (perm_append_last front pool.held channel).trans hparts
      · intro task
        rw [hwaits]
        exact (waiting_append task (granted_ne_waiting channel)).symm
      · simp only [hnobody, List.append_nil] at horder
        simp [hnobody, horder, List.range_succ]
  | queued hfree =>
      refine ⟨?_, ?_, fun _ => hfree, ?_⟩
      · change (pool.free ++ (pool.tasks ++ [Phase.waiting]).filterMap Phase.channel).Perm channels
        rw [held_append]
        simpa [Phase.channel] using hparts
      · intro task
        rw [List.mem_append, hwaits, List.mem_singleton, List.getElem?_append]
        split
        next hlt => exact or_iff_left (Nat.ne_of_lt hlt)
        next hpast =>
          have hnone : pool.tasks[task]? = none := List.getElem?_eq_none (Nat.not_lt.mp hpast)
          rw [hnone, List.getElem?_singleton]
          have hlast : task - pool.tasks.length = 0 ↔ task = pool.tasks.length := by omega
          simp [hlast]
      · simp [← List.append_assoc, horder, List.range_succ]
  | @moved task old new channel htask hold hnew =>
      refine ⟨?_, ?_, hneeded, ?_⟩
      · have hheld := held_set new htask hold
        rw [hnew] at hheld
        exact ((List.perm_append_right_iff _).mp hheld |>.append_left _).trans hparts
      · intro other
        rw [hwaits]
        exact (waiting_set other htask (Phase.ne_waiting hold) (Phase.ne_waiting hnew)).symm
      · simpa using horder
  | @handedOver task next rest channel htask hwaiting =>
      have hnext : pool.tasks[next]? = some .waiting :=
        (hwaits next).mp (by rw [hwaiting]; exact List.mem_cons_self)
      have hne : task ≠ next := by
        rintro rfl
        rw [htask] at hnext
        cases hnext
      have hkept : (pool.tasks.set task .done)[next]? = some .waiting := by
        rwa [List.getElem?_set_ne hne]
      -- Nobody waits twice: the calls are served and wait in the order of their numbers.
      have hdistinct : (next :: rest).Nodup := by
        have hrange : (served ++ pool.waiting).Nodup := horder ▸ List.nodup_range
        rw [hwaiting] at hrange
        exact (List.nodup_append.mp hrange).2.1
      refine ⟨?_, ?_, fun _ => hneeded (by rw [hwaiting]; exact List.cons_ne_nil _ _), ?_⟩
      · have hreleased := held_set .done htask rfl
        have hgranted := perm_filterMap_set (f := Phase.channel) (.granted channel) hkept
        have hheld := hgranted.trans hreleased
        simp only [Phase.channel, Option.toList_none, List.append_nil] at hheld
        exact (hheld.append_left _).trans hparts
      · intro other
        have hset : (pool.tasks.set task .done)[other]? = some .waiting ↔
            pool.tasks[other]? = some .waiting :=
          waiting_set other htask nofun nofun
        rw [List.getElem?_set]
        split
        next heq =>
          subst heq
          refine iff_of_false (List.nodup_cons.mp hdistinct).1 ?_
          split <;> simp
        next hother =>
          rw [hset, ← hwaits, hwaiting, List.mem_cons]
          exact (or_iff_right (Ne.symm hother)).symm
      · rw [hwaiting] at horder
        simpa using horder
  | @freed task channel htask hwaiting =>
      refine ⟨?_, ?_, fun hnobody => absurd hwaiting hnobody, ?_⟩
      · have hreleased := held_set .done htask rfl
        simp only [Phase.channel, Option.toList_none, List.append_nil] at hreleased
        have hgiven :
            (pool.free ++ [channel] ++ (pool.tasks.set task .done).filterMap Phase.channel).Perm
            (pool.free ++ pool.held) :=
          (perm_append_last _ _ _).symm.trans
            (by rw [List.append_assoc]; exact hreleased.append_left _)
        exact hgiven.trans hparts
      · intro other
        have hset : (pool.tasks.set task .done)[other]? = some .waiting ↔
            pool.tasks[other]? = some .waiting :=
          waiting_set other htask nofun nofun
        rw [hwaits]
        exact hset.symm
      · simpa using horder
  | same => exact ⟨hparts, hwaits, hneeded, by simpa using horder⟩

theorem new_fair {channels : List C} {pool : ChannelPool C} (h : new channels = some pool) :
    channels ≠ [] ∧ Fair channels [] pool := by
  unfold new at h
  split at h
  next => cases h
  next hsome =>
    cases h
    refine ⟨fun hnone => hsome (congrArg List.length hnone), ?_, ?_, nofun, rfl⟩
    · simp [held]
    · simp

theorem run_fair {channels : List C} {pool : ChannelPool C} (h : new channels = some pool)
    (actions : List PoolAction) :
    Fair channels (((pools C).outputs pool actions).map Prod.fst) ((pools C).run pool actions) := by
  exact Machine.history_run (J := fun out pool => Fair channels (out.map Prod.fst) pool)
    (fun past pool action hpast _ => by
      rw [List.map_append]
      exact (step_change pool action).fair hpast)
    [] (new_fair h).2 (Machine.along_of_forall (fun _ _ => trivial) pool actions)

/-- A call under way that has a channel. -/
def Holds (pool : ChannelPool C) (task : ℕ) (channel : C) : Prop :=
  ∃ phase, pool.tasks[task]? = some phase ∧ phase.channel = some channel

theorem mem_held {pool : ChannelPool C} {channel : C} :
    channel ∈ pool.held ↔ ∃ task, pool.Holds task channel := by
  rw [held, List.mem_filterMap]
  constructor
  · rintro ⟨phase, hphase, hchannel⟩
    obtain ⟨task, htask⟩ := List.mem_iff_getElem?.mp hphase
    exact ⟨task, phase, htask, hchannel⟩
  · rintro ⟨task, phase, htask, hchannel⟩
    exact ⟨phase, List.mem_of_getElem? htask, hchannel⟩

/-- With distinct channels, each is free or held by exactly one call. -/
theorem Fair.held_once {channels : List C} {served : List ℕ} {pool : ChannelPool C}
    (h : Fair channels served pool) (hdistinct : channels.Nodup) {channel : C}
    (hchannel : channel ∈ channels) : (channel ∈ pool.free ∧ ∀ task, ¬pool.Holds task channel) ∨
      (channel ∉ pool.free ∧ ∃! task, pool.Holds task channel) := by
  have hboth : (pool.free ++ pool.held).Nodup := h.parts.nodup_iff.mpr hdistinct
  obtain ⟨-, hheld, hapart⟩ := List.nodup_append.mp hboth
  rcases List.mem_append.mp (h.parts.mem_iff.mpr hchannel) with hfree | hmem
  · refine .inl ⟨hfree, ?_⟩
    intro task hholds
    exact hapart channel hfree channel (mem_held.mpr ⟨task, hholds⟩) rfl
  · obtain ⟨task, hholds⟩ := mem_held.mp hmem
    refine .inr ⟨fun hfree => hapart channel hfree channel hmem rfl, task, hholds, ?_⟩
    rintro other ⟨phase', hother, hchannel'⟩
    obtain ⟨phase, htask, hchannel⟩ := hholds
    exact index_unique hheld hother htask hchannel' hchannel

/-- While a call waits, some other one holds a channel. -/
theorem Fair.holder_of_waiting {channels : List C} {served : List ℕ} {pool : ChannelPool C}
    (h : Fair channels served pool) (hsome : channels ≠ []) {task : ℕ}
    (htask : pool.tasks[task]? = some .waiting) :
    pool.free = [] ∧ ∃ other channel, pool.Holds other channel := by
  have hfree := h.needed (List.ne_nil_of_mem ((h.waits task).mpr htask))
  have hparts := h.parts
  rw [hfree, List.nil_append] at hparts
  have hheld : pool.held ≠ [] := fun hnone => hsome (by simpa [hnone] using hparts)
  obtain ⟨channel, hmem⟩ := List.exists_mem_of_ne_nil _ hheld
  obtain ⟨other, hholds⟩ := mem_held.mp hmem
  exact ⟨hfree, other, channel, hholds⟩

/-- A release gives the channel to the call that has waited longest, or back to the pool. -/
theorem Fair.finish_hands_over {channels : List C} {served : List ℕ} {pool : ChannelPool C}
    (h : Fair channels served pool) {task : ℕ} {channel : C}
    (htask : pool.tasks[task]? = some (.settled channel)) :
    (∃ next rest, pool.waiting = next :: rest ∧ pool.grants (.finish task) = [(next, channel)] ∧
        (pool.step (.finish task)).tasks[next]? = some (.granted channel) ∧
        (pool.step (.finish task)).free = pool.free) ∨
      (pool.waiting = [] ∧ pool.grants (.finish task) = [] ∧
        (pool.step (.finish task)).free = pool.free ++ [channel]) := by
  cases hwaiting : pool.waiting with
  | nil => exact .inr ⟨rfl, by simp only [grants, htask, hwaiting],
      by simp only [step, release, htask, hwaiting]⟩
  | cons next rest =>
      have hnext := (h.waits next).mp (by rw [hwaiting]; exact List.mem_cons_self)
      have hstep : pool.step (.finish task) = { pool with
          waiting := rest, tasks := (pool.tasks.set task .done).set next (.granted channel) } := by
        simp only [step, release, htask, hwaiting]
      rw [hstep]
      refine .inl ⟨next, rest, rfl, by simp only [grants, htask, hwaiting], ?_, rfl⟩
      apply List.getElem?_set_self
      rw [List.length_set]
      exact (List.getElem?_eq_some_iff.mp hnext).1

/-- At every moment of every run: each channel is free or held by exactly one call, and
together these are the pool; a call waits only while no channel is free, and then another
call has one to release; calls get channels in the order in which they were made; a released
channel goes to one waiting call at most; and when all calls have settled, every channel is
free. -/
theorem channels_carry_one {channels : List C} (hdistinct : channels.Nodup) {pool : ChannelPool C}
    (hnew : new channels = some pool) (actions : List PoolAction) :
    let last := (pools C).run pool actions
    let served := ((pools C).outputs pool actions).map Prod.fst
    ((last.free ++ last.held).Perm channels ∧ ∀ channel ∈ channels,
      (channel ∈ last.free ∧ ∀ task, ¬last.Holds task channel) ∨
        (channel ∉ last.free ∧ ∃! task, last.Holds task channel)) ∧
    (∀ task : ℕ, last.tasks[task]? = some Phase.waiting →
      last.free = [] ∧ ∃ other channel, last.Holds other channel) ∧
    (served ++ last.waiting = List.range last.tasks.length ∧
      ∀ task, task ∈ last.waiting ↔ last.tasks[task]? = some Phase.waiting) ∧
    (∀ (task : ℕ) channel, last.tasks[task]? = some (Phase.settled channel) →
      (∃ next rest, last.waiting = next :: rest ∧ last.grants (.finish task) = [(next, channel)] ∧
          (last.step (.finish task)).tasks[next]? = some (.granted channel) ∧
          (last.step (.finish task)).free = last.free) ∨
        (last.waiting = [] ∧ last.grants (.finish task) = [] ∧
          (last.step (.finish task)).free = last.free ++ [channel])) ∧
    ((∀ phase ∈ last.tasks, phase = .done) → last.free.Perm channels) := by
  intro last served
  have hfair : Fair channels served last := run_fair hnew actions
  refine ⟨⟨hfair.parts, fun channel hchannel => hfair.held_once hdistinct hchannel⟩,
    fun task htask => hfair.holder_of_waiting (new_fair hnew).1 htask, ⟨hfair.order, hfair.waits⟩,
    fun task channel htask => hfair.finish_hands_over htask, ?_⟩
  intro hdone
  have hnone : last.held = [] := by
    apply List.filterMap_eq_nil_iff.mpr
    intro phase hphase
    rw [hdone phase hphase]
    rfl
  have hparts := hfair.parts
  rwa [hnone, List.append_nil] at hparts

/-- Three calls on two channels: the second task fails, and the third one gets its channel. -/
theorem channels_carry_one_three :
    let last := (pools ℕ).run { free := [10, 20] } [.run, .run, .run, .start 1, .fails 1, .finish 1]
    last.tasks = [.granted 20, .done, .granted 10] ∧ (last.free ++ last.held).Perm [10, 20] :=
  ⟨by decide, (channels_carry_one (by decide) rfl _).1.1⟩

end ChannelPool

end SoroCron.KeeperBot
