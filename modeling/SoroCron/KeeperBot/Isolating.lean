import Mathlib.Tactic.Tauto
import SoroCron.KeeperBot.Sending

/-! # Bad jobs and the TypeScript keeper

Some jobs stop every batch they are in. Splitting a stopped batch in halves finds them one by
one, wherever they are; the others run, and the bad ones sit out until their quarantine ends.
-/

namespace SoroCron.KeeperBot

variable {View C : Type}

/-! ## One try -/

/-- Simulating the batch fails in a way that belongs to a job exactly if the batch has a bad job;
otherwise all its jobs run, it pays and sending it works. -/
structure Answered (deps : TickDeps) (bad : JobId → Bool) (batch : List DueJob)
    (answers : Answers View) : Prop where
  stops : (∃ job ∈ batch, bad job.id = true) →
    ∃ err, (prepare deps answers {}).1 = .error err ∧ isJobSpecific err = true
  runs : (∀ job ∈ batch, bad job.id = false) →
    ∃ p, (prepare deps answers {}).1 = .ok p ∧ ranOf batch p.result = batch ∧
      refuses deps (batch.map DueJob.feePerRun).sum
        (p.resourceFee + answers.inclusionFee) batch.length = false ∧
      deps.dryRun = false ∧ (send answers (batch.map DueJob.id) p).2 = true

namespace Try

/-- The jobs that a try executed. -/
def executed (deps : TickDeps) (t : Try View) : List JobId :=
  match (prepare deps t.answers {}).1 with
  | .error _ => []
  | .ok p =>
      if t.submissions deps ≠ [] ∧ (send t.answers t.ids p).2 then
        (ranOf t.batch p.result).map DueJob.id else []

/-- The job that a try set aside. -/
def aside (deps : TickDeps) (t : Try View) : List JobId := asideOf deps t.answers t.batch

end Try

/-- A batch without bad jobs is executed as a whole. -/
theorem Answered.good {deps : TickDeps} {bad : JobId → Bool} {batch : List DueJob}
    {answers : Answers View} (h : Answered deps bad batch answers) (hsome : batch ≠ [])
    (hgood : ∀ job ∈ batch, bad job.id = false) (state : TickState) :
    let t : Try View := { batch, answers, parts := (runBatch deps answers batch state).next }
    t.parts = [] ∧ t.executed deps = t.ids ∧ t.aside deps = [] := by
  obtain ⟨p, hprepared, hran, hpays, hsends, happlied⟩ := h.runs hgood
  have hsubmissions : (tryCalls deps answers batch).filterMap ClientCall.submission? =
      (send answers (batch.map DueJob.id) p).1 := by
    unfold tryCalls
    rw [List.filterMap_append, submissions_prepareCalls, List.nil_append, hprepared]
    simp only [hran, hsome, if_false, hpays, Bool.false_eq_true, hsends]
    exact submissions_sendCalls _ _ _
  have hsent : (send answers (batch.map DueJob.id) p).1 ≠ [] := by
    rcases sendCalls_cases answers (batch.map DueJob.id) p with ⟨-, hone⟩ |
      ⟨-, ⟨-, hone⟩ | ⟨rebuilt, -, htwo⟩⟩
    · simp [hone]
    · simp [hone]
    · simp [htwo]
  intro t
  refine ⟨?_, ?_, ?_⟩
  · exact runBatch_sends_all (submissions_tryCalls deps answers batch state ▸ hsubmissions ▸ hsent)
  · simp only [t, Try.executed, Try.submissions, Try.calls, Try.ids, hprepared, hsubmissions, hsent,
      happlied, ne_eq, not_false_eq_true, and_self, if_true, hran]
  · simp only [t, Try.aside, asideOf, hprepared]

/-- A bad job on its own is set aside; a batch with one and others is split in halves. -/
theorem Answered.stopped {deps : TickDeps} {bad : JobId → Bool} {batch : List DueJob}
    {answers : Answers View}
    (h : Answered deps bad batch answers) (hbad : ∃ job ∈ batch, bad job.id = true)
    (state : TickState) :
    let t : Try View := { batch, answers, parts := (runBatch deps answers batch state).next }
    t.executed deps = [] ∧
      ((t.parts = [] ∧ ∃ job, batch = [job] ∧ t.aside deps = [job.id]) ∨
        (t.parts.flatten = batch ∧ t.parts ≠ [] ∧ t.aside deps = [])) := by
  obtain ⟨err, hprepared, hspecific⟩ := h.stops hbad
  have hnext : (runBatch deps answers batch state).next = _ :=
    runBatch_stopped hprepared hspecific state
  refine ⟨by simp only [Try.executed, hprepared], ?_⟩
  match batch with
  | [] =>
      obtain ⟨job, hjob, -⟩ := hbad
      cases hjob
  | [job] =>
      refine .inl ⟨hnext, job, rfl, ?_⟩
      simp only [Try.aside, asideOf, hprepared, hspecific, if_true]
  | first :: second :: rest =>
      have hparts : (runBatch deps answers (first :: second :: rest) state).next =
          Worklist.halves (first :: second :: rest) := by
        rw [hnext, if_pos (by simp)]
        rfl
      refine .inr ⟨?_, ?_, ?_⟩
      · rw [hparts, Worklist.flatten_halves]
      · rw [hparts]
        exact List.cons_ne_nil _ _
      · simp only [Try.aside, asideOf, hprepared]

/-! ## One tick -/

/-- The client answers a turn as it should for these bad jobs. -/
def Behaves (deps : TickDeps) (bad : JobId → Bool) (sending : Sending C)
    (action : SendAction View) : Prop :=
  ∀ turn batch rest, action = .turn turn → sending.works turn.queue = true →
    sending.tick.queues[turn.queue]? = some (batch :: rest) → Answered deps bad batch turn.answers

theorem Behaves.of_head {deps : TickDeps} {bad : JobId → Bool} {sending : Sending C}
    {turn : Turn View} (batch : List DueJob) (rest : List (List DueJob))
    (hqueue : sending.tick.queues[turn.queue]? = some (batch :: rest))
    (h : Answered deps bad batch turn.answers) : Behaves deps bad sending (.turn turn) := by
  rintro _ other others ⟨⟩ - hother
  cases hqueue.symm.trans hother
  exact h

theorem Behaves.of_not_turn {deps : TickDeps} {bad : JobId → Bool} {sending : Sending C}
    {action : SendAction View}
    (hnot : ∀ turn, action ≠ .turn turn) : Behaves deps bad sending action :=
  fun turn _ _ haction => absurd haction (hnot turn)

namespace Try

/-- The ids of a batch that a try does not put back. -/
def settled (t : Try View) : List JobId :=
  if t.parts.map (List.map DueJob.id) = [] then t.ids else []

/-- A try executes the good jobs of what it settles, and sets the bad ones aside. -/
structure Isolates (deps : TickDeps) (bad : JobId → Bool) (t : Try View) : Prop where
  whole : t.parts.map (List.map DueJob.id) = [] ∨
    (t.parts.map (List.map DueJob.id)).flatten.Perm t.ids
  executed : t.executed deps = t.settled.filter fun id => !bad id
  aside : t.aside deps = t.settled.filter bad

end Try

theorem Answered.isolates {deps : TickDeps} {bad : JobId → Bool} {batch : List DueJob}
    {answers : Answers View}
    (h : Answered deps bad batch answers) (hsome : batch ≠ []) (state : TickState) :
    Try.Isolates deps bad
      { batch, answers, parts := (runBatch deps answers batch state).next } := by
  by_cases hbad : ∃ job ∈ batch, bad job.id = true
  · obtain ⟨hexecuted, ⟨hparts, job, rfl, haside⟩ | ⟨hwhole, hparts, haside⟩⟩ :=
      h.stopped hbad state
    · have hjob : bad job.id = true := by simpa using hbad
      have hsettled : Try.settled
          ⟨[job], answers, (runBatch deps answers [job] state).next⟩ = [job.id] := by
        rw [Try.settled, if_pos (by rw [hparts, List.map_nil])]
        rfl
      refine ⟨.inl (by rw [hparts, List.map_nil]), ?_, ?_⟩
      · rw [hexecuted, hsettled]
        simp [hjob]
      · rw [haside, hsettled]
        simp [hjob]
    · have hsettled : Try.settled ⟨batch, answers, (runBatch deps answers batch state).next⟩ = [] :=
        if_neg fun hnil => hparts (List.map_eq_nil_iff.mp hnil)
      refine ⟨.inr ?_, ?_, ?_⟩
      · rw [← List.map_flatten, hwhole]
        exact List.Perm.refl _
      · rw [hexecuted, hsettled, List.filter_nil]
      · rw [haside, hsettled, List.filter_nil]
  · have hgood : ∀ job ∈ batch, bad job.id = false := by
      intro job hjob
      by_contra hnot
      exact hbad ⟨job, hjob, Bool.not_eq_false _ ▸ hnot⟩
    obtain ⟨hparts, hexecuted, haside⟩ := h.good hsome hgood state
    have hsettled : Try.settled ⟨batch, answers, (runBatch deps answers batch state).next⟩ =
        batch.map DueJob.id :=
      if_pos (by rw [hparts, List.map_nil])
    have hids : ∀ id ∈ batch.map DueJob.id, bad id = false := by
      intro id hid
      obtain ⟨job, hjob, rfl⟩ := List.mem_map.mp hid
      exact hgood job hjob
    refine ⟨.inl (by rw [hparts, List.map_nil]), ?_, ?_⟩
    · rw [hexecuted, hsettled]
      exact (List.filter_eq_self.mpr fun id hid => by simp [hids id hid]).symm
    · rw [haside, hsettled]
      exact (List.filter_eq_nil_iff.mpr fun id hid => by simp [hids id hid]).symm

namespace Sending

variable {deps : TickDeps} {bad : JobId → Bool} {sending : Sending C}
  {actions : List (SendAction View)}

theorem out_isolates {action : SendAction View} (hfresh : Worklist.Fresh sending.left)
    (hbehaves : Behaves deps bad sending action) :
    ∀ t ∈ sending.tries deps action, t.Isolates deps bad := by
  intro t ht
  rcases step_cases deps sending action with ⟨turn, batch, rest, rfl, hworks, hqueue⟩ | ⟨-, hnone⟩
  · rw [(step_turn hworks hqueue).2] at ht
    cases List.mem_singleton.mp ht
    have hbatch := hfresh.batch_ne _ (List.mem_map_of_mem (Worklist.takes_of_head hqueue []).mem)
    refine (hbehaves turn batch rest rfl hworks hqueue).isolates ?_ _
    exact fun hnil => hbatch (List.map_eq_nil_iff.mpr hnil)
  · rw [hnone] at ht
    cases ht

theorem tries_isolate (hfresh : Worklist.Fresh sending.left)
    (hbehaves : (sendings View C deps).Along (Behaves deps bad) sending actions) :
    ∀ t ∈ (sendings View C deps).outputs sending actions, t.Isolates deps bad :=
  Machine.outputs_forall (I := fun now => Worklist.Fresh now.left)
    (fun _ _ hfresh _ => (sendings_work deps).fresh_step hfresh trivial)
      (fun _ _ => out_isolates) hfresh hbehaves

/-- What the tries executed and set aside, once nothing is left to try. -/
theorem executed_aside (hfresh : Worklist.Fresh sending.left)
    (hbehaves : (sendings View C deps).Along (Behaves deps bad) sending actions)
    (hdone : ((sendings View C deps).run sending actions).left = []) :
    let tries := (sendings View C deps).outputs sending actions
    (tries.flatMap (Try.executed deps)).Perm (sending.left.flatten.filter fun id => !bad id) ∧
      (tries.flatMap (Try.aside deps)).Perm (sending.left.flatten.filter bad) := by
  have hisolate := tries_isolate hfresh hbehaves
  have halong : (sendings View C deps).Along (fun _ _ => True) sending actions :=
    Machine.along_of_forall (fun _ _ => trivial) sending actions
  exact ⟨(sendings_work deps).kept halong (fun t ht => (hisolate t ht).whole)
    (fun t ht => (hisolate t ht).executed) hdone,
    (sendings_work deps).kept halong (fun t ht => (hisolate t ht).whole)
      (fun t ht => (hisolate t ht).aside) hdone⟩

end Sending

/-! ## Sitting out -/

namespace Quarantine

theorem mem_add (quarantine : Quarantine) (id other : JobId) (untilTick : ℕ) :
    (other, untilTick) ∈ (quarantine.add id).untilTick ↔
      (other = id ∧ untilTick = quarantine.ticks + quarantine.length) ∨
        (other ≠ id ∧ (other, untilTick) ∈ quarantine.untilTick) := by
  simp [add, and_comm, or_comm]

theorem foldl_add (quarantine : Quarantine) (ids : List JobId) :
    (ids.foldl add quarantine).ticks = quarantine.ticks ∧ (ids.foldl add quarantine).length =
      quarantine.length ∧
      ∀ id untilTick, (id, untilTick) ∈ (ids.foldl add quarantine).untilTick ↔
        (id ∈ ids ∧ untilTick = quarantine.ticks + quarantine.length) ∨
          (id ∉ ids ∧ (id, untilTick) ∈ quarantine.untilTick) := by
  induction ids generalizing quarantine with
  | nil => exact ⟨rfl, rfl, fun id untilTick => by simp⟩
  | cons first rest ih =>
      obtain ⟨hticks, hlength, hentries⟩ := ih (quarantine.add first)
      refine ⟨hticks, hlength, ?_⟩
      intro id untilTick
      rw [List.foldl_cons, hentries, mem_add]
      change (id ∈ rest ∧ untilTick = quarantine.ticks + quarantine.length) ∨ _ ↔ _
      simp only [List.mem_cons]
      tauto

theorem mem_next {quarantine : Quarantine} {id : JobId} {untilTick : ℕ}
    (hmem : (id, untilTick) ∈ quarantine.untilTick) (hlater : quarantine.ticks + 1 < untilTick) :
    (id, untilTick) ∈ quarantine.next.untilTick :=
  List.mem_filter.mpr ⟨hmem, decide_eq_true hlater⟩

theorem has_iff {quarantine : Quarantine} {id : JobId} :
    quarantine.has id = true ↔ ∃ untilTick, (id, untilTick) ∈ quarantine.untilTick := by
  simp [has]

end Quarantine

namespace Sending

variable {deps : TickDeps} {quarantine : Quarantine} {allDue : List DueJob} {channels : List C}

/-- A tick sets aside what its tries do. -/
theorem run_quarantine (deps : TickDeps) (quarantine : Option Quarantine) (allDue : List DueJob)
    (channels : List C) (actions : List (SendAction View)) :
    ((sendings View C deps).run
      (start deps quarantine allDue channels) actions).tick.state.quarantine =
      (quarantine.map Quarantine.next).map fun next =>
        (((sendings View C deps).outputs (start deps quarantine allDue channels) actions).flatMap
          (Try.aside deps)).foldl Quarantine.add next := by
  have halong : (sendings View C deps).Along (fun _ _ => True)
      (start deps quarantine allDue channels) actions :=
    Machine.along_of_forall (fun _ _ => trivial) _ actions
  have hstart : (start deps quarantine allDue channels).tick.state.quarantine =
      (quarantine.map Quarantine.next).map fun next => next := Option.map_id'.symm
  have hrun := (sendings View C deps).history_run
    (J := fun past now => now.tick.state.quarantine = (quarantine.map Quarantine.next).map
      fun next =>
      (past.flatMap (Try.aside deps)).foldl Quarantine.add next)
    (by
      intro past now action hpast _
      change (now.step deps action).tick.state.quarantine = Option.map (fun next =>
        ((past ++ now.tries deps action).flatMap _).foldl _ next) _
      rcases step_cases deps now action with ⟨turn, batch, rest, rfl, hworks, hqueue⟩ |
        ⟨hsame, hnone⟩
      · rw [(step_turn hworks hqueue).1, (step_turn hworks hqueue).2]
        dsimp only
        rw [runBatch_quarantine, hpast, Option.map_map]
        simp only [List.flatMap_append, List.flatMap_singleton, List.foldl_append]
        rfl
      · rw [hsame, hnone, List.append_nil]
        exact hpast)
    [] hstart halong
  exact hrun

theorem aside_mem {t : Try View} {id : JobId} (hid : id ∈ t.aside deps) : id ∈ t.ids := by
  unfold Try.aside asideOf at hid
  split at hid
  next err job _ heq =>
    split at hid
    · rw [Try.ids, heq]
      exact hid
    · cases hid
  next => cases hid

/-- A job that sits out is in no try of the next tick, and goes on sitting out. -/
theorem sits_out (hsize : 1 ≤ deps.batchSize) {id : JobId} {untilTick : ℕ}
    (hmem : (id, untilTick) ∈ quarantine.untilTick) (hlater : quarantine.ticks + 1 < untilTick)
    (allDue : List DueJob) (channels : List C) (actions : List (SendAction View)) :
    (∀ t ∈ (sendings View C deps).outputs (start deps (some quarantine) allDue channels) actions,
      id ∉ t.ids) ∧
      ∃ after, ((sendings View C deps).run
        (start deps (some quarantine) allDue channels) actions).tick.state.quarantine =
        some after ∧ after.ticks = quarantine.ticks + 1 ∧ (id, untilTick) ∈ after.untilTick := by
  have hnext := Quarantine.mem_next hmem hlater
  have htried : ∀ t ∈ (sendings View C deps).outputs
      (start deps (some quarantine) allDue channels) actions, id ∉ t.ids := by
    intro t ht hid
    have hlisted := (sendings_work deps).tried_mem
      (Machine.along_of_forall (fun _ _ => trivial) _ actions) ht hid
    rw [left, ← List.map_flatten] at hlisted
    obtain ⟨job, hjob, rfl⟩ := List.mem_map.mp hlisted
    change job ∈ (Tick.start deps (some quarantine) allDue).queues.flatten.flatten at hjob
    rw [start_items hsize] at hjob
    have hhas : quarantine.next.has job.id = true := Quarantine.has_iff.mpr ⟨untilTick, hnext⟩
    simp [hhas] at hjob
  refine ⟨htried, _, run_quarantine deps (some quarantine) allDue channels actions, ?_⟩
  obtain ⟨hticks, -, hentries⟩ := quarantine.next.foldl_add
    (((sendings View C deps).outputs (start deps (some quarantine) allDue channels) actions).flatMap
      (Try.aside deps))
  refine ⟨hticks, (hentries id untilTick).mpr (.inr ⟨?_, hnext⟩)⟩
  intro haside
  obtain ⟨t, ht, hid⟩ := List.mem_flatMap.mp haside
  exact htried t ht (aside_mem hid)

end Sending

/-- Ticks one after another, each with what is due and what happens in it. -/
def botTicks (View C : Type) (deps : TickDeps) (channels : List C) :
    Machine (Option Quarantine) (List DueJob × List (SendAction View)) (Try View) where
  step quarantine tick :=
    ((sendings View C deps).run
      (Sending.start deps quarantine tick.1 channels) tick.2).tick.state.quarantine
  out quarantine tick := (sendings View C deps).outputs
    (Sending.start deps quarantine tick.1 channels) tick.2

theorem sits_out_run {deps : TickDeps} (hsize : 1 ≤ deps.batchSize) (channels : List C)
    {quarantine : Quarantine}
    {id : JobId} {untilTick : ℕ} (hmem : (id, untilTick) ∈ quarantine.untilTick)
    {later : List (List DueJob × List (SendAction View))}
    (hlater : quarantine.ticks + later.length < untilTick) :
    ∀ t ∈ (botTicks View C deps channels).outputs (some quarantine) later, id ∉ t.ids := by
  induction later generalizing quarantine with
  | nil =>
      intro t ht
      cases ht
  | cons tick rest ih =>
      rw [List.length_cons] at hlater
      obtain ⟨htried, after, hafter, hticks, hkept⟩ :=
        Sending.sits_out hsize hmem (by omega) tick.1 channels tick.2
      intro t ht
      rcases List.mem_append.mp ht with hfirst | hrest
      · exact htried t hfirst
      · change t ∈ (botTicks View C deps channels).outputs
          ((sendings View C deps).run
            (Sending.start deps (some quarantine) tick.1 channels) tick.2).tick.state.quarantine
          rest at hrest
        rw [hafter] at hrest
        exact ih hkept (by omega) t hrest

/-- A tick executes the good due jobs and sets the bad ones aside, and these are in no later try
until their quarantine ends. -/
theorem tick_isolates {deps : TickDeps} (hsize : 1 ≤ deps.batchSize) {quarantine : Quarantine}
    (hempty : quarantine.untilTick = []) {allDue : List DueJob}
    (hdistinct : (allDue.map DueJob.id).Nodup)
    {bad : JobId → Bool} {channels : List C} {actions : List (SendAction View)}
    (hbehaves : (sendings View C deps).Along (Behaves deps bad)
      (Sending.start deps (some quarantine) allDue channels) actions) :
    let last := (sendings View C deps).run
      (Sending.start deps (some quarantine) allDue channels) actions
    let tries := (sendings View C deps).outputs
      (Sending.start deps (some quarantine) allDue channels) actions
    (last.tick.queues.flatten = [] →
      (tries.flatMap (Try.executed deps)).Perm ((allDue.map DueJob.id).filter fun id => !bad id) ∧
      (tries.flatMap (Try.aside deps)).Perm ((allDue.map DueJob.id).filter bad) ∧
      ∃ after, last.tick.state.quarantine = some after ∧
        ∀ id, after.has id = true ↔ id ∈ allDue.map DueJob.id ∧ bad id = true) ∧
    (∀ early t late, tries = early ++ t :: late → ∀ id ∈ t.aside deps, ∀ later ∈ late,
      id ∉ later.ids) ∧
    ∀ later : List (List DueJob × List (SendAction View)), later.length < quarantine.length →
      ∀ id ∈ tries.flatMap (Try.aside deps),
        ∀ t ∈ (botTicks View C deps channels).outputs last.tick.state.quarantine later,
          id ∉ t.ids := by
  intro last tries
  have hfresh := Sending.start_fresh hsize (some quarantine) hdistinct channels
  have hnobody : quarantine.next.untilTick = [] := by
    rw [Quarantine.next, hempty, List.filter_nil]
  have hitems : (Sending.start deps (some quarantine) allDue channels).left.flatten =
      allDue.map DueJob.id := by
    rw [Sending.left, ← List.map_flatten]
    change ((Tick.start deps (some quarantine) allDue).queues.flatten.flatten).map DueJob.id = _
    rw [Sending.start_items hsize]
    refine congrArg _ (List.filter_eq_self.mpr fun job _ => ?_)
    simp [Quarantine.has, hnobody]
  have hquarantine := Sending.run_quarantine deps (some quarantine) allDue channels actions
  obtain ⟨hticks, hlength, hentries⟩ := quarantine.next.foldl_add (tries.flatMap (Try.aside deps))
  refine ⟨?_, ?_, ?_⟩
  · intro hdone
    have hnone : ((sendings View C deps).run
        (Sending.start deps (some quarantine) allDue channels) actions).left = [] := by
      change last.tick.queues.flatten.map _ = []
      rw [hdone, List.map_nil]
    obtain ⟨hexecuted, hbad⟩ := Sending.executed_aside hfresh hbehaves hnone
    rw [hitems] at hexecuted hbad
    change (tries.flatMap (Try.aside deps)).Perm _ at hbad
    refine ⟨hexecuted, hbad, _, hquarantine, ?_⟩
    intro id
    rw [Quarantine.has_iff, ← List.mem_filter, ← hbad.mem_iff]
    constructor
    · rintro ⟨untilTick, hentry⟩
      rcases (hentries id untilTick).mp hentry with ⟨hid, -⟩ | ⟨-, hold⟩
      · exact hid
      · rw [hnobody] at hold
        cases hold
    · exact fun hid => ⟨_, (hentries id _).mpr (.inl ⟨hid, rfl⟩)⟩
  · intro early t late hsplit id hid
    have ht : t ∈ tries := by
      rw [hsplit]
      exact List.mem_append_right _ List.mem_cons_self
    have hset := (Sending.tries_isolate hfresh hbehaves t ht).aside
    have hparts : t.parts.map (List.map DueJob.id) = [] := by
      by_contra hback
      rw [Try.settled, if_neg hback, List.filter_nil] at hset
      rw [hset] at hid
      cases hid
    exact (Sending.sendings_work deps).never_again hfresh
      (Machine.along_of_forall (fun _ _ => trivial) _ actions) hsplit
      (Sending.aside_mem hid) (by simp [hparts])
  · intro later hlater id hid
    have hentry := (hentries id _).mpr (.inl ⟨hid, rfl⟩)
    change ∀ t ∈ (botTicks View C deps channels).outputs
      ((sendings View C deps).run
        (Sending.start deps (some quarantine) allDue channels) actions).tick.state.quarantine
      later, id ∉ t.ids
    rw [hquarantine]
    refine sits_out_run hsize channels hentry ?_
    rw [hticks]
    exact Nat.add_lt_add_left hlater _

end SoroCron.KeeperBot
