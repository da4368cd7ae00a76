import SoroCron.Registry.Deployment
import SoroCron.Registry.Lives

/-! # One run for each slot

The runs of a job between two updates lie on one grid of due times. A run is never early, and
the next one is due at the first grid point after it, so slots that nobody ran are skipped.
-/

namespace SoroCron

open Outcome Bounded

variable {World : Type} {host : Host World} {c c' : Chain World} {id : JobId}

/-! ## Between two updates -/

/-- Two runs in a row under one schedule: the second is due at the first grid point after the
first one happened, if that point fits. -/
structure NextSlot (first second : Execution World) : Prop where
  interval : second.interval = first.interval
  slot : ∃ least, IsLeast (Grid.After first.due first.interval first.time) least ∧
    second.due = min least u64Max

/-- Two runs of different slots, except at the end of time. -/
structure Apart (first second : Execution World) : Prop where
  due : first.due < u64Max → first.due < second.due
  time : first.time < u64Max → first.time < second.time

/-- One run after another. -/
structure Before (first second : Execution World) : Prop extends Apart first second where
  due_le : first.due ≤ second.due
  time_le : first.time ≤ second.time

instance : Trans (Before : Execution World → Execution World → Prop) Before Before where
  trans {first second third} h h' := by
    refine ⟨⟨?_, ?_⟩, h.due_le.trans h'.due_le, h.time_le.trans h'.time_le⟩
    · intro hlt
      exact (h.due hlt).trans_le h'.due_le
    · intro hlt
      exact (h.time hlt).trans_le h'.time_le

/-- What a job's phase says about its next run, if no update comes first. -/
def JobPhase.Awaits (next : Execution World) : JobPhase → Prop
  | .future => True
  | .live spec state => next.due = state.nextRun ∧ next.interval = spec.interval
  | .gone => False

/-- The runs of a life without updates that starts at `now`. -/
structure OnGrid (now : Timestamp) (phase : JobPhase) (runs : List (Execution World)) : Prop where
  next : ∀ next ∈ runs.head?, now ≤ next.time ∧ phase.Awaits next
  onTime : ∀ execution ∈ runs, execution.due ≤ execution.time
  chain : runs.IsChain fun first second => NextSlot first second ∧ Before first second

/-- A run starts where the job's state says, and leaves the next slot to the next run. -/
theorem onGrid_of_ran {now : Timestamp} {execution : Execution World} {before after : JobPhase}
    {runs : List (Execution World)} (h : JobChange host now (.ran execution) before after)
    (hrest : OnGrid now after runs) : OnGrid now before (execution :: runs) := by
  obtain ⟨r, rfl, -, -, hjobs, hran, hfound, rfl, rfl⟩ := h.ran_inv
  have hspec := hjobs.specs _ _ (JobTable.specs_get_of_parts hran.admitted.parts)
  have hstate := hjobs.states _ _ (JobTable.states_get_of_parts hran.admitted.parts)
  have hdue : execution.due = r.admission.state.nextRun := by
    rw [Execution.due, hfound, Option.map_some, Option.getD_some]
  have hinterval : execution.interval = r.admission.spec.interval := by
    rw [Execution.interval, hfound, Option.map_some, Option.getD_some]
  have honTime : execution.due ≤ execution.time := by
    rw [hdue]
    exact (ensureDue_eq_ok.mp hran.admitted.due).2.2.2.2
  have hpos : 0 < execution.interval := by
    rw [hinterval]
    exact hspec.interval_pos
  have hnext : r.nextRun = min
      (Grid.next execution.due execution.interval execution.time) u64Max := by
    rw [hdue, hinterval]
    exact nextRunAfter_eq_some hspec.interval_pos hran.priced.nextRun
  refine ⟨?_, ?_, ?_⟩
  · intro next hmem
    cases hmem
    exact ⟨le_rfl, hdue, hinterval⟩
  · intro other hmem
    rcases List.mem_cons.mp hmem with rfl | hmem
    · exact honTime
    · exact hrest.onTime other hmem
  · rw [List.isChain_cons]
    refine ⟨?_, hrest.chain⟩
    intro second hmem
    obtain ⟨hlater, hsecondDue, hsecondInterval⟩ := hrest.next second hmem
    have hslot : second.due =
        min (Grid.next execution.due execution.interval execution.time) u64Max :=
      hsecondDue.trans hnext
    have hafter : second.due ≤ second.time := hrest.onTime second (List.mem_of_mem_head? hmem)
    have hgrid : execution.due < Grid.next execution.due execution.interval execution.time :=
      Grid.start_lt_next hpos
    have hpast : execution.time < Grid.next execution.due execution.interval execution.time :=
      Grid.lt_next hpos
    have hfits : execution.due ≤ u64Max := hdue ▸ hstate.nextRun_fits
    -- Due times and moments are apart as long as they are below the top of the clock.
    refine ⟨⟨hsecondInterval.trans hinterval.symm, _, Grid.next_isLeast hpos, hslot⟩,
      ⟨⟨?_, ?_⟩, ?_, hlater⟩⟩
    · intro hlt
      rw [hslot]
      exact lt_min hgrid hlt
    · intro hlt
      refine lt_of_lt_of_le ?_ hafter
      rw [hslot]
      exact lt_min hpast hlt
    · rw [hslot]
      exact le_min hgrid.le hfits

/-- What one thing done to a job adds in front of the runs after it. -/
theorem JobChange.onGrid {now : Timestamp} {act : JobAct World} {before after : JobPhase}
    {runs : List (Execution World)} (h : JobChange host now act before after)
    (hkept : ∀ update, act ≠ .updated update) (hrest : OnGrid now after runs) :
    OnGrid now before (runsIn [act] ++ runs) := by
  cases act with
  | ran execution => exact onGrid_of_ran h hrest
  | updated update => exact absurd rfl (hkept update)
  | cancelled =>
      refine ⟨?_, hrest.onTime, hrest.chain⟩
      intro next hmem
      obtain ⟨hlater, hawaits⟩ := hrest.next next hmem
      cases h
      cases hawaits
  | created owner params deposit =>
      refine ⟨?_, hrest.onTime, hrest.chain⟩
      intro next hmem
      obtain ⟨hlater, -⟩ := hrest.next next hmem
      cases h
      exact ⟨hlater, trivial⟩
  | _ =>
      -- The others keep the next run and the interval.
      refine ⟨?_, hrest.onTime, hrest.chain⟩
      intro next hmem
      obtain ⟨hlater, hawaits⟩ := hrest.next next hmem
      cases h
      exact ⟨hlater, hawaits⟩

theorem OnGrid.earlier {now later : Timestamp} {phase : JobPhase} {runs : List (Execution World)}
    (h : OnGrid later phase runs) (hle : now ≤ later) : OnGrid now phase runs := by
  refine ⟨?_, h.onTime, h.chain⟩
  intro next hmem
  obtain ⟨hlater, hawaits⟩ := h.next next hmem
  exact ⟨hle.trans hlater, hawaits⟩

theorem onGrid_of_life {segment : List (JobAct World)} {before after : Timestamp × JobPhase}
    (h : Life (Timed (JobChange host)) segment before after)
    (hkept : ∀ update, .updated update ∉ segment) : OnGrid before.1 before.2 (runsIn segment) := by
  induction h with
  | nil phase =>
      refine ⟨?_, ?_, List.IsChain.nil⟩
      · intro next hmem
        cases hmem
      · intro execution hmem
        cases hmem
  | @cons act acts before middle after hone _ ih =>
      obtain ⟨hle, hchange⟩ := hone
      have hrest := ih fun update hmem => hkept update (List.mem_cons_of_mem _ hmem)
      have hact : ∀ update, act ≠ .updated update := by
        rintro update rfl
        exact hkept update List.mem_cons_self
      have hall := (hchange.onGrid hact hrest).earlier hle
      rwa [← runsIn_append] at hall

/-! ## Within the limits -/

/-- What a run found: nothing that stops the job. -/
structure WithinLimits (execution : Execution World) (spec : JobSpec) (state : JobState) :
    Prop where
  found : execution.found = some (spec, state)
  active : state.active = true
  maxRuns : spec.maxRuns ≠ 0 → state.runs < spec.maxRuns
  endAt : spec.endAt ≠ 0 → execution.time < spec.endAt
  running : execution.before.chain.reg.isTargetHalted spec.target = false
  live : execution.before.chain.reg.config.paused = false

theorem JobChange.withinLimits {now : Timestamp} {execution : Execution World}
    {before after : JobPhase} (h : JobChange host now (.ran execution) before after) :
    ∃ spec state, before = .live spec state ∧ WithinLimits execution spec state := by
  obtain ⟨r, -, hlive, -, -, hran, hfound, hbefore, -⟩ := h.ran_inv
  obtain ⟨hactive, hmax, hend, -, -⟩ := ensureDue_eq_ok.mp hran.admitted.due
  exact ⟨_, _, hbefore, hfound, hactive, hmax.resolve_left, hend.resolve_left,
    hran.admitted.running, hlive⟩

/-- A live job knows how often it ran. -/
def JobPhase.Counts (past : List (JobAct World)) : JobPhase → Prop
  | .future => runCount past = 0
  | .live _ state => state.runs = min (runCount past) u32Max
  | .gone => True

theorem JobChange.counts {past : List (JobAct World)} {now : Timestamp} {act : JobAct World}
    {before after : JobPhase} (hbefore : before.Counts past)
    (h : JobChange host now act before after) : after.Counts (past ++ [act]) := by
  cases h with
  | created howner hspec =>
      change 0 = min _ _
      rw [runCount_append, show runCount past = 0 from hbefore]
      rfl
  | cancelled => trivial
  | ran hnow hlive hconfig hjobs hran =>
      change satAdd32 _ 1 = min _ _
      rw [runCount_append, show _ = min (runCount past) u32Max from hbefore]
      change min (min (runCount past) u32Max + 1) u32Max = min (runCount past + 1) u32Max
      omega
  | _ =>
      change _ = min _ _
      rw [runCount_append]
      exact hbefore

/-! ## Along runs -/

/-- Along every run, for every job: between two updates every run is on time and the due
times follow one grid, each due time and each moment taken once. Every run at all found the
job within its limits, and the job counts its runs until the counter is full. -/
theorem one_run_per_slot {start : Chain World} {actions : List (Action World)}
    (hstart : Deployed host start) (halong : (machine host).Along (Admissible host) start actions)
    (id : JobId) :
    let done := jobActs id ((machine host).outputs start actions)
    (∀ earlier segment later, done = earlier ++ segment ++ later →
      (∀ update, .updated update ∉ segment) →
      (∀ execution ∈ runsIn segment, execution.due ≤ execution.time) ∧
        (runsIn segment).IsChain NextSlot ∧ (runsIn segment).Pairwise Apart) ∧
      (∀ past execution rest, done = past ++ .ran execution :: rest →
        ∃ spec state, WithinLimits execution spec state ∧ state.runs = min (runCount past) u32Max) ∧
      ∀ spec state, ((machine host).run start actions).reg.jobs.getJobParts id =
        some (spec, state) →
        state.runs = min (runCount done) u32Max := by
  intro done
  obtain ⟨now, -, hlife⟩ := job_life hstart.sound id halong
  have hfuture := hstart.phase_eq id
  have hcounts : ∀ {past phase},
      Life (Timed (JobChange host)) past (start.now, start.reg.jobs.phase id)
      phase → phase.2.Counts past := by
    intro past phase hpast
    refine hpast.history (J := fun past phase => phase.2.Counts past) ?_ [] ?_
    · intro past act before after hbefore hchange
      exact hchange.2.counts hbefore
    · rw [hfuture]
      exact rfl
  refine ⟨?_, ?_, ?_⟩
  · intro earlier segment later hdone hkept
    rw [show jobActs id _ = _ from hdone] at hlife
    obtain ⟨last, hlife, -⟩ := hlife.split
    obtain ⟨first, -, hsegment⟩ := hlife.split
    have hgrid := onGrid_of_life hsegment hkept
    refine ⟨hgrid.onTime, hgrid.chain.imp fun _ _ h => h.1, ?_⟩
    have hbefore : (runsIn segment).IsChain Before := hgrid.chain.imp fun _ _ h => h.2
    exact (List.isChain_iff_pairwise.mp hbefore).imp Before.toApart
  · intro past execution rest hdone
    rw [show jobActs id _ = _ from hdone] at hlife
    obtain ⟨found, left, hpast, ⟨-, hran⟩, -⟩ := hlife.split_at
    obtain ⟨spec, state, hbefore, hlimits⟩ := hran.withinLimits
    have hcount := hcounts hpast
    rw [hbefore] at hcount
    exact ⟨spec, state, hlimits, hcount⟩
  · intro spec state hparts
    have hcount := hcounts hlife
    dsimp only at hcount
    rw [phase_of_parts hparts] at hcount
    exact hcount

/-- The first job runs once more, a minute later. -/
def secondRun : List (Action Unit) :=
  firstRun ++ [.advance 1130, .call ⟨[⟨4⟩]⟩ (.run (.executeBatch ⟨4⟩ [0, 0]))]

theorem secondRun_admissible (c : Chain Unit) :
    (machine plainHost).Along (Admissible plainHost) c secondRun := by
  refine Machine.along_append.mpr ⟨firstRun_admissible c, ?_⟩
  simp [Machine.Along, Admissible, Call.WellTyped, u64Max]

theorem one_run_per_slot_secondRun :
    let done := jobActs 0 ((machine plainHost).outputs (deployment ⟨3⟩ 1000 100 10 1000) secondRun)
    (runsIn done).map Execution.due = [1000, 1120] ∧ (runsIn done).Pairwise Apart := by
  intro done
  have hlaws := (one_run_per_slot (deployment_deployed ⟨3⟩ 10 1000 (by decide) (by decide))
    (secondRun_admissible _) 0).1 [] done [] (List.append_nil _).symm
  have hkept : done.all (fun act => match act with
      | .updated _ => false
      | _ => true) = true := rfl
  refine ⟨rfl, (hlaws ?_).2.2⟩
  intro update hmem
  exact absurd (List.all_eq_true.mp hkept _ hmem) Bool.false_ne_true

end SoroCron
