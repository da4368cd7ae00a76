import SoroCron.KeeperBot.Tries
import SoroCron.KeeperRs.Registry
import SoroCron.Registry.Deployment

/-! # What a sent batch is worth to its keeper

Both keepers compare the fees of the jobs that would run with the cost of the transaction, and
both count fees of which the registry pays a part to the treasury. The TypeScript keeper counts
base fees, so late runs can make up for that; it also sends a rebuilt batch without looking at
what it earns.
-/

namespace SoroCron

open Outcome Bounded
open KeeperBot (Prepared Submission TickDeps TickState DueJob runBatch prepare ticks Tick Turn)

variable {World : Type} {host : Host World} {keeper : Address}

/-- The chain a batch was simulated on, and who signed for it there. -/
structure Seen (World : Type) where
  ctx : Ctx
  chain : Chain World

/-- The registry answers this simulation of a batch. -/
structure Simulated (host : Host World) (keeper : Address) (ids : List JobId)
    (p : Prepared (Seen World)) : Prop where
  reachable : Reachable host p.view.chain
  runs : ∃ c', executeBatch host p.view.ctx p.view.chain keeper ids = .ok (p.result, c')

/-- What the registry pays the keeper for a batch, as simulated. -/
def paid (host : Host World) (keeper : Address) (s : Submission (Seen World)) : ℤ :=
  total .keeper keeper (paymentsOf host s.prepared.view.ctx s.prepared.view.chain
    (.executeBatch keeper s.ids))

/-- A transaction leaves its keeper `minProfit` or more. -/
def Pays (host : Host World) (keeper : Address) (minProfit : ℤ)
    (s : Submission (Seen World)) : Prop :=
  minProfit ≤ paid host keeper s - s.cost

instance (minProfit : ℤ) (s : Submission (Seen World)) : Decidable (Pays host keeper minProfit s) :=
  inferInstanceAs (Decidable (minProfit ≤ paid host keeper s - s.cost))

/-- What a simulated batch would leave its keeper. -/
def worth (ids : List JobId) (p : Prepared (Seen World)) (inclusionFee : ℕ) : ℤ :=
  quoted Quote.keeperFee p.view.chain (ranOf ids p.result) - (p.resourceFee + inclusionFee)

theorem Simulated.paid_eq {ids : List JobId} {p : Prepared (Seen World)}
    (h : Simulated host keeper ids p) (hdistinct : ids.Nodup) (inclusionFee : ℕ) :
    paid host keeper ⟨ids, p, inclusionFee⟩ =
      quoted Quote.keeperFee p.view.chain (ranOf ids p.result) := by
  obtain ⟨c', hruns⟩ := h.runs
  exact (executeBatch_pays h.reachable.sound hdistinct hruns).1

theorem Simulated.quotes {ids : List JobId} {p : Prepared (Seen World)}
    (h : Simulated host keeper ids p)
    (hdistinct : ids.Nodup) : ∀ id ∈ ranOf ids p.result, ∃ q, quote p.view.chain id = some q := by
  obtain ⟨c', hruns⟩ := h.runs
  intro id hid
  exact Option.isSome_iff_exists.mp
    ((executeBatch_pays h.reachable.sound hdistinct hruns).2.2 id hid)

/-! ## The TypeScript keeper -/

/-- The index has the base fees that the registry has. -/
def Current (batch : List DueJob) (c : Chain World) : Prop :=
  ∀ job ∈ batch, ∀ spec, c.reg.jobs.specs.get job.id = some spec → spec.feePerRun = job.feePerRun

/-- What the jobs pay above their base fees, because they run late, covers the protocol's part. -/
def LateCovers (c : Chain World) (ran : List JobId) : Prop :=
  quoted Quote.protocolFee c ran ≤ quoted Quote.fee c ran - quoted Quote.base c ran

theorem sum_feePerRun {c : Chain World} {batch : List DueJob} (hcurrent : Current batch c)
    (hquotes : ∀ job ∈ batch, ∃ q, quote c job.id = some q) :
    (batch.map DueJob.feePerRun).sum = quoted Quote.base c (batch.map DueJob.id) := by
  induction batch with
  | nil => rfl
  | cons job rest ih =>
      have hrest := ih (fun other hmem => hcurrent other (List.mem_cons_of_mem _ hmem))
        fun other hmem => hquotes other (List.mem_cons_of_mem _ hmem)
      obtain ⟨q, hquote⟩ := hquotes job List.mem_cons_self
      obtain ⟨spec, state, hparts, hbase, -⟩ := quote_eq_some hquote
      have hfee := hcurrent job List.mem_cons_self spec (JobTable.specs_get_of_parts hparts)
      rw [List.map_cons, List.map_cons, List.sum_cons, quoted_cons, hrest, hquote, Option.elim_some,
        hbase, hfee]

/-- What a try of a batch sends. -/
theorem mem_submitted {View : Type} {deps : TickDeps} {answers : KeeperBot.Answers View}
    {batch : List DueJob} {state : TickState} {s : Submission View} :
    s ∈ (runBatch deps answers batch state).submitted ↔
      ∃ p, (prepare deps answers state.summary).1 = .ok p ∧ ranOf batch p.result ≠ [] ∧
        KeeperBot.refuses deps ((ranOf batch p.result).map DueJob.feePerRun).sum
          (p.resourceFee + answers.inclusionFee) (ranOf batch p.result).length = false ∧
        deps.dryRun = false ∧ s ∈ (KeeperBot.send answers (batch.map DueJob.id) p).1 := by
  unfold runBatch
  obtain ⟨prepared, summary⟩ := prepare deps answers state.summary
  cases prepared with
  | error err =>
      simp only [reduceCtorEq, false_and, exists_false, iff_false]
      split
      · exact List.not_mem_nil
      · split
        · exact List.not_mem_nil
        · exact List.not_mem_nil
  | ok p =>
      simp only [Except.ok.injEq, exists_eq_left']
      split
      next hnone => simp [hnone]
      next hsome =>
        cases hrefuses : KeeperBot.refuses deps ((ranOf batch p.result).map DueJob.feePerRun).sum
            (p.resourceFee + answers.inclusionFee) (ranOf batch p.result).length with
        | true =>
            simp only [if_true, Bool.true_eq_false, false_and, and_false, iff_false]
            split
            · exact List.not_mem_nil
            · exact List.not_mem_nil
        | false =>
            cases hdry : deps.dryRun with
            | true => simp
            | false =>
                simp only [Bool.false_eq_true, if_false, true_and, hsome, ne_eq, not_false_eq_true]
                split
                · exact Iff.rfl
                · exact Iff.rfl

theorem mem_send {View : Type} {answers : KeeperBot.Answers View} {ids : List JobId}
    {p : Prepared View} {s : Submission View} :
    s ∈ (KeeperBot.send answers ids p).1 ↔ s = ⟨ids, p, answers.inclusionFee⟩ ∨
      ∃ rebuilt, answers.send = .error .staleSequence ∧ answers.rebuilt = .ok rebuilt ∧
        s = ⟨ids, rebuilt, answers.inclusionFee⟩ := by
  unfold KeeperBot.send
  cases hsend : answers.send with
  | ok u => simp
  | error why =>
      cases why with
      | other => simp
      | staleSequence =>
          cases hrebuilt : answers.rebuilt with
          | error err => simp
          | ok rebuilt => simp

/-- When a try of a batch is safe whatever minimum is configured. -/
structure SafeTry (host : Host World) (deps : TickDeps) (answers : KeeperBot.Answers (Seen World))
    (batch : List DueJob) (p : Prepared (Seen World)) : Prop where
  late : LateCovers p.view.chain (ranOf (batch.map DueJob.id) p.result)
  /-- A rebuilt transaction is worth what was estimated for the first one. -/
  rebuilt : ∀ q, answers.send = .error .staleSequence → answers.rebuilt = .ok q →
    quoted Quote.base p.view.chain (ranOf (batch.map DueJob.id) p.result) -
      (p.resourceFee + answers.inclusionFee) ≤ worth (batch.map DueJob.id) q answers.inclusionFee

/-- A try of a batch with fees in XLM, a current index and the registry's own answers. -/
structure Tries (host : Host World) (deps : TickDeps) (answers : KeeperBot.Answers (Seen World))
    (batch : List DueJob) (state : TickState) (p : Prepared (Seen World)) : Prop where
  native : deps.feeIsNative = true
  prepared : (prepare deps answers state.summary).1 = .ok p
  simulated : Simulated host deps.keeper (batch.map DueJob.id) p
  rebuilt : ∀ q, answers.rebuilt = .ok q → Simulated host deps.keeper (batch.map DueJob.id) q
  distinct : (batch.map DueJob.id).Nodup
  current : Current batch p.view.chain

section Bot

variable {deps : TickDeps} {answers : KeeperBot.Answers (Seen World)} {batch : List DueJob}
  {state : TickState}
  {p : Prepared (Seen World)}

/-- What the keeper counts on is the base fees of the jobs that would run. -/
theorem Simulated.estimate (h : Simulated host keeper (batch.map DueJob.id) p)
    (hdistinct : (batch.map DueJob.id).Nodup) (hcurrent : Current batch p.view.chain) :
    ((ranOf batch p.result).map DueJob.feePerRun).sum =
      quoted Quote.base p.view.chain (ranOf (batch.map DueJob.id) p.result) := by
  rw [← map_ranOf]
  apply sum_feePerRun
  · intro job hmem
    exact hcurrent job (mem_of_mem_ranOf _ _ hmem)
  · intro job hmem
    apply h.quotes hdistinct
    rw [← map_ranOf]
    exact List.mem_map_of_mem hmem

/-- A try in which nothing goes wrong sends only what pays. -/
theorem SafeTry.pays (h : SafeTry host deps answers batch p)
    (htries : Tries host deps answers batch state p) :
    ∀ s ∈ (runBatch deps answers batch state).submitted,
      Pays host deps.keeper deps.minProfitStroops s := by
  obtain ⟨hnative, hprepared, hsim, hrebuilt, hdistinct, hcurrent⟩ := htries
  intro s hmem
  obtain ⟨found, hfound, -, haccepted, -, hsent⟩ := mem_submitted.mp hmem
  cases hprepared.symm.trans hfound
  rw [hsim.estimate hdistinct hcurrent] at haccepted
  simp only [KeeperBot.refuses, hnative, if_true, decide_eq_false_iff_not, not_lt] at haccepted
  rcases mem_send.mp hsent with rfl | ⟨q, hstale, hagain, rfl⟩
  · have hlate := h.late
    have hsplit := quoted_split p.view.chain (ranOf (batch.map DueJob.id) p.result)
    unfold LateCovers at hlate
    rw [Pays, hsim.paid_eq hdistinct, Submission.cost]
    dsimp only
    omega
  · have hworth := h.rebuilt q hstale hagain
    unfold worth at hworth
    rw [Pays, (hrebuilt q hagain).paid_eq hdistinct, Submission.cost]
    dsimp only
    omega

/-- At every configured minimum a try of a batch sends only what pays exactly if it sends nothing
or nothing can go wrong. -/
theorem Tries.pays_iff (h : Tries host deps answers batch state p) :
    (∀ minProfitStroops, ∀ s ∈
      (runBatch { deps with minProfitStroops } answers batch state).submitted,
      Pays host deps.keeper minProfitStroops s) ↔
    deps.dryRun = true ∨ ranOf batch p.result = [] ∨ SafeTry host deps answers batch p := by
  obtain ⟨hnative, hprepared, hsim, hrebuilt, hdistinct, hcurrent⟩ := h
  constructor
  · intro hpays
    by_cases hdry : deps.dryRun = true
    · exact .inl hdry
    by_cases hnone : ranOf batch p.result = []
    · exact .inr (.inl hnone)
    right
    right
    let estimate := quoted Quote.base p.view.chain (ranOf (batch.map DueJob.id) p.result) -
      (p.resourceFee + answers.inclusionFee)
    -- The largest minimum at which the batch is still sent.
    have hall : ∀ s ∈ (KeeperBot.send answers (batch.map DueJob.id) p).1,
        Pays host deps.keeper estimate s := by
      intro s hsent
      apply hpays estimate s
      apply mem_submitted.mpr
      refine ⟨p, hprepared, hnone, ?_, Bool.eq_false_iff.mpr hdry, hsent⟩
      rw [hsim.estimate hdistinct hcurrent]
      simp [KeeperBot.refuses, hnative, estimate]
    refine ⟨?_, ?_⟩
    · have hfirst := hall _ (mem_send.mpr (.inl rfl))
      have hsplit := quoted_split p.view.chain (ranOf (batch.map DueJob.id) p.result)
      rw [Pays, hsim.paid_eq hdistinct, Submission.cost] at hfirst
      unfold LateCovers
      dsimp only [estimate] at hfirst
      omega
    · intro q hstale hagain
      have hsecond := hall _ (mem_send.mpr (.inr ⟨q, hstale, hagain, rfl⟩))
      rw [Pays, (hrebuilt q hagain).paid_eq hdistinct, Submission.cost] at hsecond
      exact hsecond
  · rintro (hdry | hnone | hsafe) minProfitStroops s hmem
    · obtain ⟨-, -, -, -, hsends, -⟩ := mem_submitted.mp hmem
      rw [hdry] at hsends
      cases hsends
    · obtain ⟨found, hfound, hsome, -⟩ := mem_submitted.mp hmem
      cases hprepared.symm.trans hfound
      exact absurd hnone hsome
    · have hsafe' : SafeTry host { deps with minProfitStroops } answers batch p :=
        ⟨hsafe.late, hsafe.rebuilt⟩
      exact hsafe'.pays ⟨hnative, hprepared, hsim, hrebuilt, hdistinct, hcurrent⟩ s hmem

end Bot

/-! ### Whole ticks -/

/-- No batch left to try lists a job twice. -/
def Distinct (tick : Tick) : Prop :=
  ∀ queue ∈ tick.queues, ∀ batch ∈ queue, (batch.map DueJob.id).Nodup

/-- The registry answers the simulations of this turn, the index is current, and nothing can go
wrong. -/
def SafeTurn (host : Host World) (deps : TickDeps) (tick : Tick)
    (turn : Turn (Seen World)) : Prop :=
  ∀ batch rest p, tick.queues[turn.queue]? = some (batch :: rest) →
    (prepare deps turn.answers tick.state.summary).1 = .ok p →
    Simulated host deps.keeper (batch.map DueJob.id) p ∧
      (∀ q, turn.answers.rebuilt = .ok q → Simulated host deps.keeper (batch.map DueJob.id) q) ∧
      Current batch p.view.chain ∧
      (deps.dryRun = true ∨ ranOf batch p.result = [] ∨ SafeTry host deps turn.answers batch p)

theorem distinct_sublist {batch part : List DueJob} (hsub : part.Sublist batch)
    (hdistinct : (batch.map DueJob.id).Nodup) : (part.map DueJob.id).Nodup :=
  hdistinct.sublist (hsub.map DueJob.id)

theorem start_distinct (deps : TickDeps) (quarantine : Option KeeperBot.Quarantine)
    {allDue : List DueJob}
    (hdistinct : (allDue.map DueJob.id).Nodup) : Distinct (Tick.start deps quarantine allDue) := by
  intro queue hqueue batch hbatch
  obtain ⟨found, hfound, rfl⟩ := List.mem_map.mp hqueue
  cases List.mem_singleton.mp hbatch
  obtain ⟨i, -, rfl⟩ := List.mem_map.mp hfound
  apply distinct_sublist _ hdistinct
  exact ((List.take_sublist _ _).trans (List.drop_sublist _ _)).trans List.filter_sublist

theorem turn_distinct {View : Type} (deps : TickDeps) {tick : Tick} (hdistinct : Distinct tick)
    (turn : Turn View) : Distinct ((ticks View deps).step tick turn) := by
  rcases KeeperBot.turn_cases View deps tick turn with ⟨batch, rest, hqueue, hstep, -⟩ | ⟨hsame, -⟩
  · have hold := hdistinct _ (List.mem_of_getElem? hqueue)
    rw [hstep]
    intro queue hmem part hpart
    rcases List.mem_or_eq_of_mem_set hmem with hkept | rfl
    · exact hdistinct queue hkept part hpart
    · rcases List.mem_append.mp hpart with hnext | hrest
      · exact distinct_sublist (KeeperBot.runBatch_divides.part_sublist part hnext)
          (hold batch List.mem_cons_self)
      · exact hold part (List.mem_cons_of_mem _ hrest)
  · rw [hsame]
    exact hdistinct

/-- A turn in which nothing goes wrong sends only what pays. -/
theorem SafeTurn.pays {deps : TickDeps} {tick : Tick} {turn : Turn (Seen World)}
    (h : SafeTurn host deps tick turn)
    (hnative : deps.feeIsNative = true) (hdistinct : Distinct tick) :
    ∀ s ∈ (ticks (Seen World) deps).out tick turn,
      Pays host deps.keeper deps.minProfitStroops s := by
  intro s hmem
  rcases KeeperBot.turn_cases (Seen World) deps tick turn with ⟨batch, rest, hqueue, -, hout⟩ |
    ⟨-, hnone⟩
  · rw [hout] at hmem
    obtain ⟨p, hprepared, hsome, -, hsends, -⟩ := mem_submitted.mp hmem
    obtain ⟨hsim, hrebuilt, hcurrent, hsafe⟩ := h batch rest p hqueue hprepared
    have hids := hdistinct _ (List.mem_of_getElem? hqueue) batch List.mem_cons_self
    rcases hsafe with hdry | hnone | hsafe
    · rw [hdry] at hsends
      cases hsends
    · exact absurd hnone hsome
    · exact hsafe.pays ⟨hnative, hprepared, hsim, hrebuilt, hids, hcurrent⟩ s hmem
  · rw [hnone] at hmem
    cases hmem

/-- However the batches of a tick take turns, it sends only what pays if no turn goes wrong. -/
theorem tick_pays {deps : TickDeps} {quarantine : Option KeeperBot.Quarantine}
    {allDue : List DueJob} {turns : List (Turn (Seen World))} (hnative : deps.feeIsNative = true)
    (hdistinct : (allDue.map DueJob.id).Nodup)
    (halong : (ticks (Seen World) deps).Along (SafeTurn host deps)
      (Tick.start deps quarantine allDue) turns) :
    ∀ s ∈ (ticks (Seen World) deps).outputs (Tick.start deps quarantine allDue) turns,
      Pays host deps.keeper deps.minProfitStroops s := by
  refine Machine.outputs_forall (I := Distinct) ?_ ?_
    (start_distinct deps quarantine hdistinct) halong
  · intro tick turn htick _
    exact turn_distinct deps htick turn
  · intro tick turn htick hsafe
    exact hsafe.pays hnative htick

/-! ## The Rust keeper -/

section Rust

variable {config : KeeperRs.Config} {answers : KeeperRs.Answers (Seen World)} {ids : List JobId}
  {p : Prepared (Seen World)}

/-- Reading a flag for each job reads the flags there are. -/
theorem ranFlags_eq {result : List Bool} {len : ℕ} (hlength : result.length = len) :
    KeeperRs.ranFlags result len = result := by
  subst hlength
  apply List.ext_getElem
  · rw [KeeperRs.ranFlags, List.length_map, List.length_range]
  · intro i _ hi
    simp [KeeperRs.ranFlags, hi]

theorem Simulated.flags (h : Simulated host keeper ids p) (hdistinct : ids.Nodup) :
    KeeperRs.ranFlags p.result ids.length = p.result := by
  obtain ⟨c', hruns⟩ := h.runs
  exact ranFlags_eq (executeBatch_pays h.reachable.sound hdistinct hruns).2.1

/-- When an attempt of the Rust keeper sends nothing, or the fees it read are the keeper's. -/
def SafeAttempt (config : KeeperRs.Config) (answers : KeeperRs.Answers (Seen World))
    (ids : List JobId) (p : Prepared (Seen World)) : Prop :=
  answers.authorized = false ∨ config.dryRun = true ∨ ranOf ids p.result = [] ∨
    ∀ earned, KeeperRs.readFees answers.currentFee (ranOf ids p.result) = some earned →
      quoted Quote.protocolFee p.view.chain (ranOf ids p.result) ≤
        quoted Quote.fee p.view.chain (ranOf ids p.result) - earned

theorem mem_sent (hflags : KeeperRs.ranFlags p.result ids.length = p.result)
    (hprepared : answers.simulation = some (.ok p)) {s : Submission (Seen World)} :
    s ∈ (KeeperRs.executeBatch config ids true answers).2 ↔
      answers.authorized = true ∧ ranOf ids p.result ≠ [] ∧ config.dryRun = false ∧
        (∃ earned, KeeperRs.readFees answers.currentFee (ranOf ids p.result) = some earned ∧
          config.minProfit ≤ earned - (p.resourceFee + config.inclusionFee)) ∧
        s = ⟨ids, p, config.inclusionFee⟩ := by
  unfold KeeperRs.executeBatch
  simp only [hprepared, hflags]
  cases hauthorized : answers.authorized with
  | false => simp
  | true =>
      simp only [Bool.true_eq_false, if_false, true_and]
      split
      next hnone => simp [hnone]
      next hsome =>
        cases hread : KeeperRs.readFees answers.currentFee (ranOf ids p.result) with
        | none => simp
        | some earned =>
            by_cases hpays : config.minProfit ≤ earned - (p.resourceFee + config.inclusionFee)
            · cases hdry : config.dryRun with
              | true => simp [KeeperRs.profitable, hpays]
              | false => simp [KeeperRs.profitable, hpays, hsome]
            · simp [KeeperRs.profitable, hpays]

/-- At every configured minimum an attempt sends only what pays exactly if it sends nothing, or
what the jobs pay above the fees read covers the protocol's part. -/
theorem executeBatch_pays_iff (hprepared : answers.simulation = some (.ok p))
    (hsim : Simulated host config.keeper ids p) (hdistinct : ids.Nodup) :
    (∀ minProfit, ∀ s ∈ (KeeperRs.executeBatch { config with minProfit } ids true answers).2,
      Pays host config.keeper minProfit s) ↔ SafeAttempt config answers ids p := by
  have hflags := hsim.flags hdistinct
  have hsplit := quoted_split p.view.chain (ranOf ids p.result)
  have hpaid := hsim.paid_eq hdistinct config.inclusionFee
  constructor
  · intro hpays
    by_cases hauthorized : answers.authorized = false
    · exact .inl hauthorized
    by_cases hdry : config.dryRun = true
    · exact .inr (.inl hdry)
    by_cases hnone : ranOf ids p.result = []
    · exact .inr (.inr (.inl hnone))
    refine .inr (.inr (.inr ?_))
    intro earned hread
    -- The largest minimum at which the batch is still sent.
    have hone := hpays (earned - (p.resourceFee + config.inclusionFee))
      ⟨ids, p, config.inclusionFee⟩
      ((mem_sent hflags hprepared).mpr
        ⟨Bool.not_eq_false _ ▸ hauthorized, hnone, Bool.eq_false_iff.mpr hdry,
        ⟨earned, hread, le_rfl⟩, rfl⟩)
    rw [Pays, hpaid, Submission.cost] at hone
    dsimp only at hone
    omega
  · intro hsafe minProfit s hmem
    obtain ⟨hauthorized, hsome, hdry, ⟨earned, hread, henough⟩, rfl⟩ :=
      (mem_sent hflags hprepared).mp hmem
    rcases hsafe with hrefused | hdry' | hnone | hcovers
    · rw [hrefused] at hauthorized
      cases hauthorized
    · exact absurd hdry' (Bool.eq_false_iff.mp hdry)
    · exact absurd hnone hsome
    · have hcovered := hcovers earned hread
      rw [Pays, Submission.cost]
      dsimp only at henough ⊢
      omega

/-- A fee as `current_fee` reads it. -/
def feeOn (c : Chain World) (id : JobId) : ℤ := ((currentFee c id).join).getD 0

theorem feeOn_eq {c : Chain World} {id : JobId} {q : Quote} (h : quote c id = some q) :
    feeOn c id = q.fee := by
  obtain ⟨spec, state, hparts, -, hfee, -⟩ := quote_eq_some h
  have hread : currentFee c id = some (some q.fee) := by
    simp only [currentFee, hparts, Option.bind_eq_bind, Option.bind_some, Option.pure_def]
    rw [hfee]
  rw [feeOn, hread]
  rfl

/-- Fees read where the batch was simulated add up to what its jobs are charged. -/
theorem readFees_current {c : Chain World} {ran : List JobId}
    (hquotes : ∀ id ∈ ran, ∃ q, quote c id = some q) :
    KeeperRs.readFees (fun id => some (feeOn c id)) ran = some (quoted Quote.fee c ran) := by
  induction ran with
  | nil => rfl
  | cons id rest ih =>
      obtain ⟨q, hquote⟩ := hquotes id List.mem_cons_self
      have hrest := ih fun other hmem => hquotes other (List.mem_cons_of_mem _ hmem)
      simp only [KeeperRs.readFees, hrest, Option.bind_eq_bind, Option.bind_some, Option.pure_def]
      rw [quoted_cons, hquote, Option.elim_some, feeOn_eq hquote]

/-- With fees read where the batch was simulated, an attempt that sends is safe exactly if the
protocol takes nothing. -/
theorem safeAttempt_current (hsim : Simulated host config.keeper ids p) (hdistinct : ids.Nodup)
    (hreads : answers.currentFee = fun id => some (feeOn p.view.chain id)) :
    SafeAttempt config answers ids p ↔
      answers.authorized = false ∨ config.dryRun = true ∨ ranOf ids p.result = [] ∨
        quoted Quote.protocolFee p.view.chain (ranOf ids p.result) ≤ 0 := by
  have hread := readFees_current (hsim.quotes hdistinct)
  unfold SafeAttempt
  rw [hreads, hread]
  simp only [Option.some.injEq, forall_eq', sub_self]

end Rust

/-! ## Both -/

/-- What a keeper sends leaves it the configured minimum, whatever that is, exactly if the
protocol's part of the fees of the jobs that run is covered: in the TypeScript keeper by what
they pay above their base fees, in the Rust keeper by what they pay above the fees it read,
which is nothing when these are current. A batch that the TypeScript keeper sends again after a
stale sequence number must be worth what was estimated for the first one. A tick in which every
turn meets this sends only what pays, in whatever order its batches take turns. -/
theorem sends_pay_iff_covered (host : Host World) :
    (∀ deps answers batch state p, Tries host deps answers batch state p →
      ((∀ minProfitStroops, ∀ s ∈
          (runBatch { deps with minProfitStroops } answers batch state).submitted,
          Pays host deps.keeper minProfitStroops s) ↔
        deps.dryRun = true ∨ ranOf batch p.result = [] ∨ SafeTry host deps answers batch p)) ∧
    (∀ deps quarantine allDue turns, deps.feeIsNative = true → (allDue.map DueJob.id).Nodup →
      (ticks (Seen World) deps).Along (SafeTurn host deps)
        (Tick.start deps quarantine allDue) turns →
      ∀ s ∈ (ticks (Seen World) deps).outputs (Tick.start deps quarantine allDue) turns,
        Pays host deps.keeper deps.minProfitStroops s) ∧
    (∀ (config : KeeperRs.Config) (answers : KeeperRs.Answers (Seen World)) ids p,
      answers.simulation = some (.ok p) → Simulated host config.keeper ids p → ids.Nodup →
      ((∀ minProfit, ∀ s ∈ (KeeperRs.executeBatch { config with minProfit } ids true answers).2,
          Pays host config.keeper minProfit s) ↔ SafeAttempt config answers ids p) ∧
      ((answers.currentFee = fun id => some (feeOn p.view.chain id)) →
        (SafeAttempt config answers ids p ↔
          answers.authorized = false ∨ config.dryRun = true ∨ ranOf ids p.result = [] ∨
            quoted Quote.protocolFee p.view.chain (ranOf ids p.result) ≤ 0))) := by
  refine ⟨?_, ?_, ?_⟩
  · intro deps answers batch state p htries
    exact htries.pays_iff
  · intro deps quarantine allDue turns hnative hdistinct halong
    exact tick_pays hnative hdistinct halong
  · intro config answers ids p hprepared hsim hdistinct
    exact ⟨executeBatch_pays_iff hprepared hsim hdistinct, safeAttempt_current hsim hdistinct⟩

/-! ### A batch at a loss -/

/-- One job that pays 1000, of which the treasury gets a tenth, is due. -/
def tenthRun : List (Action Unit) :=
  [.call ⟨[⟨3⟩]⟩ (.admin (.setExecutor ⟨6⟩)),
    .call ⟨[⟨3⟩]⟩ (.admin (.setProtocolFee 1000 (some ⟨8⟩))),
    .call ⟨[⟨4⟩]⟩ (.keeper (.stake ⟨4⟩ 100)),
    .call ⟨[⟨5⟩]⟩ (.job (.createJob ⟨5⟩ { minutely with feePerRun := 1000 } 5000)),
    .advance 1060]

def tenthChain : Chain Unit := (machine plainHost).run (deployment ⟨3⟩ 1000 100 10 10000) tenthRun

theorem tenthChain_reachable : Reachable plainHost tenthChain := by
  refine ⟨_, tenthRun, deployment_deployed ⟨3⟩ 10 10000 (by decide) (by decide), ?_, rfl⟩
  simp [tenthRun, Machine.Along, Admissible, Call.WellTyped, JobParams.WellTyped, minutely, u64Max,
    i128Max]

/-- Its simulation, at a resource fee of 780. -/
def tenthPrepared : Prepared (Seen Unit) where
  result := [true]
  resourceFee := 780
  view := ⟨⟨[⟨4⟩]⟩, tenthChain⟩

def tenthDeps : TickDeps where
  keeper := ⟨4⟩
  batchSize := 20
  feeIsNative := true

def tenthAnswers : KeeperBot.Answers (Seen Unit) where
  inclusionFee := 200
  simulation := .ok tenthPrepared
  restore := .ok ()
  resimulation := .ok tenthPrepared
  send := .ok ()
  rebuilt := .ok tenthPrepared
  resend := .ok ()

def tenthConfig : KeeperRs.Config where
  keeper := ⟨4⟩
  inclusionFee := 200
  minProfit := 0
  maxCostPerJob := 0
  dryRun := false

def tenthReads : KeeperRs.Answers (Seen Unit) where
  simulation := some (.ok tenthPrepared)
  authorized := true
  currentFee id := some (feeOn tenthChain id)
  send := some ()

theorem tenth_simulated : Simulated plainHost ⟨4⟩ [0] tenthPrepared := by
  exact ⟨tenthChain_reachable, _, rfl⟩

theorem tenth_current : Current [⟨0, 1000⟩] tenthChain := by
  intro job hmem spec hspec
  cases List.mem_singleton.mp hmem
  cases hspec
  rfl

/-- Both keepers send a batch that costs 980 and pays 900. -/
theorem sends_at_a_loss :
    Simulated plainHost ⟨4⟩ [0] tenthPrepared ∧ Current [⟨0, 1000⟩] tenthChain ∧
      (∃ s ∈ (ticks (Seen Unit) tenthDeps).outputs (Tick.start tenthDeps none [⟨0, 1000⟩])
        [⟨0, tenthAnswers⟩],
        s.prepared = tenthPrepared ∧ ¬ Pays plainHost ⟨4⟩ tenthDeps.minProfitStroops s) ∧
      ∃ s ∈ (KeeperRs.executeBatch tenthConfig [0] true tenthReads).2,
        s.prepared = tenthPrepared ∧ ¬ Pays plainHost ⟨4⟩ tenthConfig.minProfit s := by
  refine ⟨tenth_simulated, tenth_current, ?_, ?_⟩
  · exact ⟨⟨[0], tenthPrepared, 200⟩, List.mem_singleton_self _, rfl, by decide⟩
  · exact ⟨⟨[0], tenthPrepared, 200⟩, List.mem_singleton_self _, rfl, by decide⟩

/-- No run of that batch is late enough to cover the treasury's tenth. -/
theorem sends_pay_iff_covered_tenth :
    (¬ ∀ minProfitStroops, ∀ s ∈
      (runBatch { tenthDeps with minProfitStroops } tenthAnswers [⟨0, 1000⟩]
        ⟨{}, none⟩).submitted, Pays plainHost ⟨4⟩ minProfitStroops s) ∧
      ¬ ∀ minProfit, ∀ s ∈
        (KeeperRs.executeBatch { tenthConfig with minProfit } [0] true tenthReads).2,
        Pays plainHost ⟨4⟩ minProfit s := by
  obtain ⟨hbot, -, hrust⟩ := sends_pay_iff_covered plainHost
  have htries : Tries plainHost tenthDeps tenthAnswers [⟨0, 1000⟩] ⟨{}, none⟩ tenthPrepared := by
    refine ⟨rfl, rfl, tenth_simulated, ?_, by decide, tenth_current⟩
    rintro q hq
    cases hq
    exact tenth_simulated
  obtain ⟨hattempt, hcurrent⟩ :=
    hrust tenthConfig tenthReads [0] tenthPrepared rfl tenth_simulated (by decide)
  refine ⟨?_, ?_⟩
  · intro hpays
    rcases (hbot _ _ _ _ _ htries).mp hpays with hdry | hnone | hsafe
    · cases hdry
    · cases hnone
    · have hlate := hsafe.late
      revert hlate
      unfold LateCovers
      decide
  · intro hpays
    rcases (hcurrent rfl).mp (hattempt.mp hpays) with hrefused | hdry | hnone | hcovered
    · cases hrefused
    · cases hdry
    · cases hnone
    · revert hcovered
      decide

end SoroCron
