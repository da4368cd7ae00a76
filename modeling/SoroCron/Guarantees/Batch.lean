import SoroCron.Registry.Deployment

/-! # A batch is a sequence of executes

`executeBatch` loads the caller's record once, runs the jobs, and writes the record and pays
at the end. Seen from outside it is the same `execute` calls one after another: a batch in
progress stays in step with the chain on which every earlier run was already settled.
-/

namespace SoroCron

open Outcome Bounded

variable {World : Type} {host : Host World} {ctx : Ctx} {keeper executor : Address}
  {info : Keeper} {jobId : JobId} {c x : Chain World} {b b' : Batch World}

/-! ## The sequence -/

/-- The jobs executed one after the other, each in a call of its own: which calls succeeded
and the chain they leave. -/
def executeEach (host : Host World) (ctx : Ctx) (keeper : Address) :
    List JobId → Chain World → List Bool × Chain World
  | [], c => ([], c)
  | jobId :: rest, c =>
      let result := execute host ctx c keeper jobId
      let (ran, last) := executeEach host ctx keeper rest (c.after result)
      (result.isOk :: ran, last)

/-- Two chains with the same surroundings, jobs, settings, keeper records and recent
averages. -/
structure SameLedger (c x : Chain World) : Prop where
  around : x.toSurroundings = c.toSurroundings
  reg : x.reg = { c.reg with keepers := x.reg.keepers }
  active : x.reg.keepers.active = c.reg.keepers.active
  infos : ∀ who, x.reg.keepers.infos.get who = c.reg.keepers.infos.get who
  recents : ∀ who, x.reg.keepers.getKeeperRecent who = c.reg.keepers.getKeeperRecent who

/-- A run of this job would pass every gate, but its next time cannot be computed. -/
def Overflowing (host : Host World) (keeper : Address) (jobId : JobId) (c : Chain World) : Prop :=
  ∃ admission, Admitted host c.reg c.now keeper jobId admission ∧
    (resolverAllows host c.toSurroundings jobId admission.spec).answer = true ∧
    StepOverflows admission.spec admission.state c.now

/-- No turn of the sequence finds such a run. -/
def NeverOverflowing (host : Host World) (ctx : Ctx) (keeper : Address) :
    List JobId → Chain World → Prop
  | [], _ => True
  | jobId :: rest, c =>
      ¬ Overflowing host keeper jobId c ∧
        NeverOverflowing host ctx keeper rest (c.after (execute host ctx c keeper jobId))

/-! ## What the calls between may see -/

/-- Surroundings that differ at most in what these holders have of one token. -/
structure SameBut (token : Address) (holders : List Address) (around around' : Surroundings World) :
    Prop where
  now : around'.now = around.now
  world : around'.world = around.world
  balances : ∀ token' holder, token' ≠ token ∨ holder ∉ holders →
    around'.balances token' holder = around.balances token' holder

/-- No resolver and no target depends on what these holders have of `token`. -/
structure BlindTo (host : Host World) (token : Address) (holders : List Address) : Prop where
  shouldRun : ∀ around around' resolver jobId, SameBut token holders around around' →
    host.shouldRun around' resolver jobId = host.shouldRun around resolver jobId
  tryExecute : ∀ around around' executor target function args,
    SameBut token holders around around' →
    host.tryExecute around' executor target function args =
      host.tryExecute around executor target function args

/-- Resolvers write nothing and move no tokens. -/
def ReadOnlyResolvers (host : Host World) : Prop :=
  ∀ around resolver jobId, (host.shouldRun around resolver jobId).world = around.world ∧
    (host.shouldRun around resolver jobId).moved = 0

/-- Everyone whose fee balance a payout changes. -/
def payees (host : Host World) (config : Config) (keeper : Address) : List Address :=
  host.registry :: keeper :: config.treasury.toList

theorem resolverAllows_readOnly (jobId : JobId) (hreadOnly : ReadOnlyResolvers host)
    (around : Surroundings World)
    (spec : JobSpec) : (resolverAllows host around jobId spec).world = around.world ∧
      (resolverAllows host around jobId spec).moved = 0 := by
  unfold resolverAllows
  split
  · exact ⟨rfl, rfl⟩
  · exact hreadOnly around _ jobId

/-- Asking a resolver that only reads leaves a call as it was. -/
theorem asked_readOnly (b : Batch World) (jobId : JobId) (hreadOnly : ReadOnlyResolvers host)
    (spec : JobSpec) : b.asked host jobId spec = b := by
  obtain ⟨hworld, hmoved⟩ := resolverAllows_readOnly jobId hreadOnly b.chain.toSurroundings spec
  rw [Batch.asked, Chain.afterCall, hworld, hmoved, add_zero]

theorem resolverAllows_blind {token : Address} {holders : List Address}
    {around around' : Surroundings World} (hblind : BlindTo host token holders)
    (hsame : SameBut token holders around around') (spec : JobSpec) :
    resolverAllows host around' jobId spec = resolverAllows host around jobId spec := by
  unfold resolverAllows
  split
  · rw [hsame.world]
  · exact hblind.shouldRun _ _ _ _ hsame

/-! ## Payouts add up -/

theorem settled_zero (config : Config) : settled host config keeper {} = 0 := by
  unfold settled
  cases config.treasury <;> simp

theorem settled_add (config : Config) (first second : Payout) :
    settled host config keeper ⟨first.keeperFees + second.keeperFees,
        first.protocolFees + second.protocolFees⟩ =
      settled host config keeper first + settled host config keeper second := by
  unfold settled
  cases config.treasury with
  | none => simp only [Option.elim_none, add_zero, movedBy_add]
  | some treasury =>
      simp only [Option.elim_some, movedBy_add]
      exact add_add_add_comm _ _ _ _

/-- A payout changes no balance but the payees' balances of the fee token. -/
theorem settled_apply (config : Config) (payout : Payout) {token holder : Address}
    (hother : token ≠ config.feeToken ∨ holder ∉ payees host config keeper) :
    settled host config keeper payout token holder = 0 := by
  have hmoved : ∀ receiver amount, receiver ∈ payees host config keeper →
      movedBy config.feeToken host.registry receiver amount token holder = 0 := by
    intro receiver amount hreceiver
    rw [movedBy_apply]
    rcases hother with htoken | hholder
    · simp [htoken]
    · have hne : holder ≠ receiver := fun heq => hholder (heq ▸ hreceiver)
      have hregistry : holder ≠ host.registry := by
        rintro rfl
        exact hholder List.mem_cons_self
      simp [hne, hregistry]
  unfold settled
  rw [Pi.add_apply, Pi.add_apply, hmoved keeper _ (by simp [payees])]
  cases htreasury : config.treasury with
  | none => rfl
  | some treasury =>
      rw [Option.elim_some, hmoved treasury _ (by simp [payees, htreasury])]
      rfl

/-! ## Staying in step -/

/-- The batch `b` in progress and the chain `x` on which its runs are settled. -/
structure InStep (host : Host World) (keeper : Address) (b : Batch World) (x : Chain World) :
    Prop where
  now : x.now = b.chain.now
  world : x.world = b.chain.world
  balances : x.balances = b.chain.balances + settled host b.chain.reg.config keeper b.payout
  reg : x.reg = { b.chain.reg with keepers := x.reg.keepers }
  active : x.reg.keepers.active = b.chain.reg.keepers.active
  infos : ∀ who, who ≠ keeper → x.reg.keepers.infos.get who = b.chain.reg.keepers.infos.get who
  recents : ∀ who, who ≠ keeper →
    x.reg.keepers.getKeeperRecent who = b.chain.reg.keepers.getKeeperRecent who
  ownInfo : x.reg.keepers.infos.get keeper = some b.record.info
  ownRecent : x.reg.keepers.getKeeperRecent keeper = b.record.recent

theorem InStep.start (hinfo : c.reg.keepers.infos.get keeper = some info) :
    InStep host keeper (startBatch c keeper info) c := by
  refine ⟨rfl, rfl, ?_, rfl, rfl, fun _ _ => rfl, fun _ _ => rfl, hinfo, rfl⟩
  rw [startBatch, settled_zero, add_zero]

theorem InStep.sameBut (h : InStep host keeper b x) :
    SameBut b.chain.reg.config.feeToken (payees host b.chain.reg.config keeper)
      b.chain.toSurroundings x.toSurroundings := by
  refine ⟨h.now, h.world, ?_⟩
  intro token holder hother
  rw [h.balances, Pi.add_apply, Pi.add_apply, settled_apply _ _ hother, add_zero]

theorem InStep.bonds (h : InStep host keeper b x) (hunder : Underway c info b)
    (hinfo : c.reg.keepers.infos.get keeper = some info) (who : Address) :
    x.reg.keepers.bondOf who = b.chain.reg.keepers.bondOf who := by
  by_cases heq : who = keeper
  · subst heq
    rw [hunder.bonds, bondOf_of_info h.ownInfo, bondOf_of_info hinfo, hunder.stake,
      hunder.unbondingAt]
  · rw [KeeperTable.bondOf, KeeperTable.bondOf, h.infos who heq]

/-- Both find the same gates open. -/
theorem InStep.admitted (h : InStep host keeper b x) (hunder : Underway c info b)
    (hinfo : c.reg.keepers.infos.get keeper = some info) {admission : Admission} :
    Admitted host x.reg x.now keeper jobId admission ↔
      Admitted host b.chain.reg b.chain.now keeper jobId admission := by
  rw [← runGates_eq_ok, ← runGates_eq_ok, h.reg, h.now]
  rw [runGates_congr h.active (h.bonds hunder hinfo)]

/-- The record that an `execute` on the settled chain loads is the one the batch keeps. -/
theorem InStep.load (h : InStep host keeper b x) :
    KeeperRecord.load x.reg.keepers keeper b.record.info = b.record := by
  rw [KeeperRecord.load, h.ownRecent]

/-- Everything is the same once the batch has settled. -/
theorem InStep.finish (h : InStep host keeper b x) :
    SameLedger { b.chain with
      reg := { b.chain.reg with keepers := b.record.save b.chain.reg.keepers keeper }
      balances := b.chain.balances + settled host b.chain.reg.config keeper b.payout } x := by
  refine ⟨?_, ?_, h.active, ?_, ?_⟩
  · change x.toSurroundings = ⟨b.chain.now, b.chain.world,
      b.chain.balances + settled host b.chain.reg.config keeper b.payout⟩
    rw [← h.balances, ← h.now, ← h.world]
  · rw [h.reg]
  · intro who
    simp only [KeeperRecord.save, KeeperTable.setKeeperRecent_infos, KeeperTable.setKeeper_infos,
      Store.get_set]
    split
    next heq => rw [heq, h.ownInfo]
    next hne => exact h.infos who hne
  · intro who
    simp only [KeeperRecord.save, KeeperTable.getKeeperRecent, KeeperTable.setKeeperRecent_recents,
      KeeperTable.setKeeper_recents, Store.get_set]
    split
    next heq =>
      rw [heq]
      exact h.ownRecent
    next hne => exact h.recents who hne

section Step

variable {s : Batch World} {r r' : Receipt World}

/-- What the call around one run leaves once it is settled. -/
def Batch.settledAs (host : Host World) (keeper : Address) (b : Batch World) : Chain World :=
  { b.chain with
    reg := { b.chain.reg with keepers := b.record.save b.chain.reg.keepers keeper }
    balances := b.chain.balances + settled host b.chain.reg.config keeper b.payout }

/-- Both runs of the job decide the same. -/
theorem InStep.receipt (h : InStep host keeper b x) (hunder : Underway c info b)
    (hinfo : c.reg.keepers.infos.get keeper = some info) (hreadOnly : ReadOnlyResolvers host)
    (hblind : BlindTo host b.chain.reg.config.feeToken (payees host b.chain.reg.config keeper))
    (hran : Ran host executor keeper jobId b b' r)
    (hran' : Ran host executor keeper jobId (startBatch x keeper b.record.info) s r') : r' = r := by
  have hadmission : r'.admission = r.admission := by
    have hleft := runGates_eq_ok.mpr ((h.admitted hunder hinfo).mp hran'.admitted)
    have hright := runGates_eq_ok.mpr hran.admitted
    exact Except.ok.inj (hleft.symm.trans hright)
  obtain ⟨hcall, hfee, hsplit, hbalance, hnext⟩ := hran.priced
  obtain ⟨hcall', hfee', hsplit', hbalance', hnext'⟩ := hran'.priced
  rw [asked_readOnly _ _ hreadOnly] at hcall hfee hsplit hnext hcall' hfee' hsplit' hnext'
  have hchain : (startBatch x keeper b.record.info).chain = x := rfl
  have hconfig : x.reg.config = b.chain.reg.config := by rw [h.reg]
  rw [hchain, hblind.tryExecute _ _ _ _ _ _ h.sameBut, hadmission, ← hcall] at hcall'
  rw [hchain, h.now, hadmission, hfee, Option.some.injEq] at hfee'
  rw [hchain, hconfig, ← hfee', hsplit, Option.some.injEq, Prod.mk.injEq] at hsplit'
  rw [hadmission, ← hfee', hbalance, Option.some.injEq] at hbalance'
  rw [hchain, h.now, hadmission, hnext, Option.some.injEq] at hnext'
  obtain ⟨admission, call, fee, keeperFee, protocolFee, balance, nextRun⟩ := r
  obtain ⟨admission', call', fee', keeperFee', protocolFee', balance', nextRun'⟩ := r'
  dsimp only at hadmission hcall' hfee' hsplit' hbalance' hnext'
  obtain ⟨rfl, rfl⟩ := hsplit'
  subst hadmission hcall' hfee' hbalance' hnext'
  rfl

/-- Charging a miss to somebody else keeps all records but the caller's the same. -/
theorem charge_congr {keepers keepers' : KeeperTable} {charged : Option Address} {who : Address}
    (hinfos : keepers'.infos.get who = keepers.infos.get who)
    (hrecents : keepers'.getKeeperRecent who = keepers.getKeeperRecent who) :
    (charged.elim keepers' keepers'.noteMiss).infos.get who =
        (charged.elim keepers keepers.noteMiss).infos.get who ∧
      (charged.elim keepers' keepers'.noteMiss).getKeeperRecent who =
        (charged.elim keepers keepers.noteMiss).getKeeperRecent who := by
  cases charged with
  | none => exact ⟨hinfos, hrecents⟩
  | some missed =>
      simp only [Option.elim_some]
      rw [noteMiss_infos, noteMiss_infos, noteMiss_recents, noteMiss_recents, hinfos, hrecents]
      exact ⟨rfl, rfl⟩

theorem charge_active (keepers : KeeperTable) (charged : Option Address) :
    (charged.elim keepers keepers.noteMiss).active = keepers.active := by
  cases charged with
  | none => rfl
  | some missed => exact noteMiss_active keepers missed

/-- A run of the batch and the `execute` of the same job keep in step. -/
theorem InStep.ran (h : InStep host keeper b x) (hunder : Underway c info b)
    (hinfo : c.reg.keepers.infos.get keeper = some info) (hreadOnly : ReadOnlyResolvers host)
    (hblind : BlindTo host b.chain.reg.config.feeToken (payees host b.chain.reg.config keeper))
    (hran : Ran host executor keeper jobId b b' r)
    (hran' : Ran host executor keeper jobId (startBatch x keeper b.record.info) s r') :
    InStep host keeper b' (s.settledAs host keeper) := by
  obtain rfl := h.receipt hunder hinfo hreadOnly hblind hran hran'
  have hreg := hran.reg
  have hreg' : s.chain.reg = r'.regAfter x.reg jobId x.now := hran'.reg
  have hrecord : s.record = b'.record := by
    rw [hran.record, hran'.record]
    change (KeeperRecord.load x.reg.keepers keeper b.record.info).credit _ = _
    rw [h.load]
    change b.record.credit (x.now - _) = _
    rw [h.now]
  have hcharged : r'.charged x.reg jobId x.now = r'.charged b.chain.reg jobId b.chain.now := by
    rw [h.reg, h.now]
    rfl
  have hkeepers : b'.chain.reg.keepers =
      (r'.charged b.chain.reg jobId b.chain.now).elim b.chain.reg.keepers
        b.chain.reg.keepers.noteMiss := by
    rw [hreg, Receipt.regAfter]
  have hkeepers' : s.chain.reg.keepers =
      (r'.charged b.chain.reg jobId b.chain.now).elim x.reg.keepers x.reg.keepers.noteMiss := by
    rw [hreg', Receipt.regAfter, hcharged]
  have hconfig : s.chain.reg.config = b.chain.reg.config := by
    rw [hreg', Receipt.regAfter, h.reg]
  have hconfig' : b'.chain.reg.config = b.chain.reg.config := by
    rw [hreg, Receipt.regAfter]
  refine ⟨?_, ?_, ?_, ?_, ?_, ?_, ?_, ?_, ?_⟩
  · exact (hran'.now.trans h.now).trans hran.now.symm
  · exact hran'.world.trans hran.world.symm
  -- The batch still owes what the single call has paid.
  · have hpaid : b'.payout = ⟨b.payout.keeperFees + s.payout.keeperFees,
        b.payout.protocolFees + s.payout.protocolFees⟩ := by
      rw [hran.result, hran'.result]
      simp [Receipt.after, startBatch, Batch.asked]
    have hmoved : s.chain.balances = x.balances + r'.call.moved := by
      rw [hran'.balances, (resolverAllows_readOnly _ hreadOnly _ _).2, add_zero]
      rfl
    rw [Batch.settledAs, hmoved, h.balances, hconfig, hconfig', hpaid, settled_add, hran.balances,
      (resolverAllows_readOnly _ hreadOnly _ _).2, add_zero, add_right_comm _ _ r'.call.moved,
        add_assoc]
  · rw [Batch.settledAs, hreg', hreg, Receipt.regAfter, Receipt.regAfter, h.reg]
  · change (s.record.save s.chain.reg.keepers keeper).active = _
    rw [hkeepers, charge_active, ← h.active, ← charge_active x.reg.keepers, ← hkeepers']
    rfl
  · intro who hwho
    change (s.chain.reg.keepers.infos.set keeper s.record.info).get who = _
    rw [Store.get_set_of_ne _ _ hwho, hkeepers, hkeepers']
    exact (charge_congr (h.infos who hwho) (h.recents who hwho)).1
  · intro who hwho
    change (((s.chain.reg.keepers.recents.set keeper s.record.recent).get who).getD {}) = _
    rw [Store.get_set_of_ne _ _ hwho, hkeepers, hkeepers']
    exact (charge_congr (h.infos who hwho) (h.recents who hwho)).2
  · rw [← hrecord]
    exact Store.get_set_self _ _ _
  · rw [← hrecord]
    change (((s.chain.reg.keepers.recents.set keeper s.record.recent).get keeper).getD {}) = _
    rw [Store.get_set_self]
    rfl

end Step

/-! ## The refinement -/

/-- A job whose gates are closed is skipped by the batch and refused by `execute`. -/
theorem runJob_closed (executor : Address)
    (hclosed : ¬ ∃ admission, Admitted host b.chain.reg b.chain.now keeper jobId admission ∧
      (resolverAllows host b.chain.toSurroundings jobId admission.spec).answer = true)
    (hreadOnly : ReadOnlyResolvers host) :
    ∃ reason, runJob host executor keeper jobId b = .ok (.error reason, b) := by
  cases hgates : runGates host b.chain.reg b.chain.now keeper jobId with
  | error reason => exact ⟨reason, by simp only [runJob, hgates]⟩
  | ok admission =>
      have hrefused :
          ¬ (resolverAllows host b.chain.toSurroundings jobId admission.spec).answer = true :=
        fun hallowed => hclosed ⟨admission, runGates_eq_ok.mp hgates, hallowed⟩
      refine ⟨.resolverRejected, ?_⟩
      have hasked := asked_readOnly b jobId hreadOnly admission.spec
      rw [Batch.asked] at hasked
      simp only [runJob, hgates, hasked, if_neg hrefused]

/-- At an overflow the whole batch fails. -/
theorem runJob_overflowing {admission : Admission}
    (hadmitted : Admitted host b.chain.reg b.chain.now keeper jobId admission)
    (hallowed : (resolverAllows host b.chain.toSurroundings jobId admission.spec).answer = true)
    (hsteps : StepOverflows admission.spec admission.state b.chain.now)
    (hnow : b.chain.now ≤ u64Max) (outcome : Except Error Unit × Batch World) :
    runJob host executor keeper jobId b ≠ .ok outcome := by
  obtain ⟨outcome, b'⟩ := outcome
  intro hjob
  have hgates := runGates_eq_ok.mpr hadmitted
  unfold runJob at hjob
  simp only [hgates, hallowed, if_true, bind_eq_ok, pure_eq_ok, Prod.mk.injEq] at hjob
  obtain ⟨after, hrun, rfl, rfl⟩ := hjob
  obtain ⟨r, rfl, hpriced, -, -, -⟩ := performRun_eq_ok.mp hrun
  have hnone := (nextRunAfter_eq_none hnow).mpr hsteps
  have hsome := hpriced.nextRun
  rw [show (b.chain.afterCall _).now = b.chain.now from rfl, hnone] at hsome
  cases hsome

theorem InStep.authorized (h : InStep host keeper b x) (hunder : Underway c info b)
    (hauth : authorizeKeeper host ctx c.reg keeper = .ok (executor, info)) :
    authorizeKeeper host ctx x.reg keeper = .ok (executor, b.record.info) := by
  obtain ⟨hlive, hexecutor, hsigned, -, hactive⟩ := authorizeKeeper_eq_ok.mp hauth
  have hconfig : x.reg.config = c.reg.config := by rw [h.reg, ← hunder.config]
  refine authorizeKeeper_eq_ok.mpr ⟨hconfig ▸ hlive, hconfig ▸ hexecutor, hsigned, h.ownInfo, ?_⟩
  rw [ensureActiveKeeper_eq_ok] at hactive ⊢
  rw [hconfig, hunder.stake, hunder.unbondingAt]
  exact hactive

theorem after_execute_solvent (ctx : Ctx) (keeper : Address) (jobId : JobId)
    (hsolvent : Solvent host x) : Solvent host (x.after (execute host ctx x keeper jobId)) := by
  have hstep : Solvent host (step host x (.call ctx (.run (.execute keeper jobId)))) :=
    step_solvent hsolvent trivial
  exact hstep

/-- How the rest of a batch in progress compares with the rest of the sequence: they keep in
step to their ends, or some turn of the sequence overflows and the batch fails there. -/
def Tracks (host : Host World) (ctx : Ctx) (executor keeper : Address) (c : Chain World)
    (info : Keeper) (jobIds : List JobId) (b : Batch World) (x : Chain World) : Prop :=
  (NeverOverflowing host ctx keeper jobIds x ∧
    ∃ b', runJobs host executor keeper jobIds b =
        .ok ((executeEach host ctx keeper jobIds x).1, b') ∧
      InStep host keeper b' (executeEach host ctx keeper jobIds x).2 ∧
      UnderwaySolvent host c info b') ∨
    (¬ NeverOverflowing host ctx keeper jobIds x ∧
      ∀ result, runJobs host executor keeper jobIds b ≠ .ok result)

/-- One turn that both sides take alike. -/
theorem Tracks.cons {rest : List JobId} {outcome : Except Error Unit}
    (hjob : runJob host executor keeper jobId b = .ok (outcome, b'))
    (hsame : outcome.isOk = (execute host ctx x keeper jobId).isOk)
    (hfits : ¬ Overflowing host keeper jobId x)
    (hrest : Tracks host ctx executor keeper c info rest b'
      (x.after (execute host ctx x keeper jobId))) :
    Tracks host ctx executor keeper c info (jobId :: rest) b x := by
  rcases hrest with ⟨hnever, last, hruns, h', hunder'⟩ | ⟨hnot, hfails⟩
  · refine .inl ⟨⟨hfits, hnever⟩, last, ?_, h', hunder'⟩
    simp only [runJobs, hjob, bind_eq_ok, Prod.exists, pure_eq_ok, executeEach]
    exact ⟨_, _, rfl, _, _, hruns, by rw [hsame]⟩
  · refine .inr ⟨fun hnever => hnot hnever.2, ?_⟩
    rintro ⟨ran, last⟩ hruns
    simp only [runJobs, hjob, bind_eq_ok, Prod.exists, pure_eq_ok] at hruns
    obtain ⟨_, _, hhead, others, last', hothers, -⟩ := hruns
    cases hhead
    exact hfails _ hothers

theorem runJobs_tracks (hpays : PaysOut host) (hreadOnly : ReadOnlyResolvers host)
    (hblind : BlindTo host c.reg.config.feeToken (payees host c.reg.config keeper))
    (hsound : c.Sound host) (hauth : authorizeKeeper host ctx c.reg keeper = .ok (executor, info))
    (jobIds : List JobId) (h : InStep host keeper b x) (hunder : UnderwaySolvent host c info b)
    (hsolvent : Solvent host x) : Tracks host ctx executor keeper c info jobIds b x := by
  obtain ⟨-, -, -, hinfo, -⟩ := authorizeKeeper_eq_ok.mp hauth
  induction jobIds generalizing b x with
  | nil => exact .inl ⟨trivial, b, rfl, h, hunder⟩
  | cons jobId rest ih =>
      have hconfig := hunder.toUnderway.config
      -- The two ledgers differ only in balances no resolver looks at.
      have hasks : ∀ spec, resolverAllows host x.toSurroundings jobId spec =
          resolverAllows host b.chain.toSurroundings jobId spec := by
        intro spec
        exact resolverAllows_blind (hconfig ▸ hblind) (hconfig ▸ h.sameBut) spec
      have hauth' := h.authorized hunder.toUnderway hauth
      have hlater := after_execute_solvent ctx keeper jobId hsolvent
      by_cases hopen : ∃ admission, Admitted host x.reg x.now keeper jobId admission ∧
          (resolverAllows host x.toSurroundings jobId admission.spec).answer = true
      · obtain ⟨admission, hadmitted, hallowed⟩ := hopen
        have hadmitted' := (h.admitted hunder.toUnderway hinfo).mp hadmitted
        have hallowed' := hallowed
        rw [hasks] at hallowed'
        -- Where the next run overflows, `execute` fails alone and the batch fails as a whole.
        by_cases hsteps : StepOverflows admission.spec admission.state x.now
        · refine .inr ⟨fun hnever => hnever.1 ⟨admission, hadmitted, hallowed, hsteps⟩, ?_⟩
          rintro ⟨ran, last⟩ hruns
          simp only [runJobs, bind_eq_ok, Prod.exists] at hruns
          obtain ⟨outcome, middle, hjob, -⟩ := hruns
          rw [h.now] at hsteps
          exact runJob_overflowing hadmitted' hallowed' hsteps (hunder.now ▸ hsound.clock) _ hjob
        -- Both run the job.
        · obtain ⟨b₁, r, rfl, hran⟩ :=
            runJob_succeeds executor hsound hunder hadmitted' hallowed' (h.now ▸ hsteps)
          have hstart := UnderwaySolvent.start hsolvent keeper b.record.info
          obtain ⟨s, r', -, hran'⟩ :=
            runJob_succeeds executor hsolvent.sound hstart hadmitted hallowed hsteps
          have hexecute : execute host ctx x keeper jobId = .ok (s.settledAs host keeper) := by
            refine execute_eq_ok.mpr ⟨executor, b.record.info, s, hauth',
              runJob_eq_ran.mpr ⟨r', hran'⟩, ?_⟩
            exact finish_succeeds keeper hpays hsolvent.sound
              (hstart.ran hsolvent.sound.config hran')
          refine Tracks.cons (runJob_eq_ran.mpr ⟨r, hran⟩) (by rw [hexecute]; rfl) ?_ ?_
          · rintro ⟨admission', hadmitted₁, -, hsteps₁⟩
            have hleft := runGates_eq_ok.mpr hadmitted₁
            rw [runGates_eq_ok.mpr hadmitted] at hleft
            cases hleft
            exact hsteps hsteps₁
          · refine ih ?_ (hunder.ran hsound.config hran) hlater
            rw [hexecute]
            exact h.ran hunder.toUnderway hinfo hreadOnly (hconfig ▸ hblind) hran hran'
      -- Both find a gate closed, or the resolver says no.
      · have hclosed : ¬ ∃ admission, Admitted host b.chain.reg b.chain.now keeper jobId admission ∧
            (resolverAllows host b.chain.toSurroundings jobId admission.spec).answer = true := by
          rintro ⟨admission, hadmitted, hallowed⟩
          rw [← hasks] at hallowed
          exact hopen ⟨admission, (h.admitted hunder.toUnderway hinfo).mpr hadmitted, hallowed⟩
        obtain ⟨reason, hjob⟩ := runJob_closed executor hclosed hreadOnly
        have hexecute : ∃ failure, execute host ctx x keeper jobId = .error failure := by
          cases hresult : execute host ctx x keeper jobId with
          | error failure => exact ⟨failure, rfl⟩
          | ok c' =>
              obtain ⟨executor', info', s, -, hrun, -⟩ := execute_eq_ok.mp hresult
              obtain ⟨r, hran⟩ := runJob_eq_ran.mp hrun
              exact absurd ⟨r.admission, hran.admitted, hran.allowed⟩ hopen
        obtain ⟨failure, hexecute⟩ := hexecute
        refine Tracks.cons hjob (by rw [hexecute]; rfl) ?_ ?_
        · rintro ⟨admission, hadmitted, hallowed, -⟩
          exact hopen ⟨admission, hadmitted, hallowed⟩
        · refine ih ?_ hunder hlater
          rw [hexecute]
          exact h

/-- In every reachable chain and for every authorized keeper, a batch returns what the same
`execute` calls one after another return and leaves what they leave, exactly when none of
them meets a run whose next time overflows. -/
theorem batch_refines_sequence (hpays : PaysOut host) (hreadOnly : ReadOnlyResolvers host)
    (hblind : BlindTo host c.reg.config.feeToken (payees host c.reg.config keeper))
    (hreach : Reachable host c)
    (hauth : authorizeKeeper host ctx c.reg keeper = .ok (executor, info))
    {jobIds : List JobId} (hsome : jobIds ≠ []) (hsize : jobIds.length ≤ maxBatch) :
    (∃ c', executeBatch host ctx c keeper jobIds =
        .ok ((executeEach host ctx keeper jobIds c).1, c') ∧
      SameLedger c' (executeEach host ctx keeper jobIds c).2) ↔
    NeverOverflowing host ctx keeper jobIds c := by
  have hsolvent := hreach.solvent
  obtain ⟨-, -, -, hinfo, -⟩ := authorizeKeeper_eq_ok.mp hauth
  have htracks := runJobs_tracks hpays hreadOnly hblind hsolvent.sound hauth jobIds
    (InStep.start hinfo) (UnderwaySolvent.start hsolvent keeper info) hsolvent
  constructor
  · rintro ⟨c', hbatch, -⟩
    obtain ⟨-, executor', info', b, hauth', hruns, -⟩ := executeBatch_eq_ok.mp hbatch
    rw [hauth] at hauth'
    cases hauth'
    rcases htracks with ⟨hnever, -⟩ | ⟨-, hfails⟩
    · exact hnever
    · exact absurd hruns (hfails _)
  · intro hnever
    rcases htracks with ⟨-, b, hruns, hstep, hunder⟩ | ⟨hnot, -⟩
    · have hfinish := finish_succeeds keeper hpays hsolvent.sound hunder
      exact ⟨_, executeBatch_eq_ok.mpr ⟨⟨hsome, hsize⟩, executor, info, b, hauth, hruns, hfinish⟩,
        hstep.finish⟩
    · exact absurd hnever hnot

/-- Before the last representable moment nothing overflows. -/
theorem neverOverflowing_of_lt (hsound : c.Sound host) (hnow : c.now < u64Max)
    (jobIds : List JobId) : NeverOverflowing host ctx keeper jobIds c := by
  induction jobIds generalizing c with
  | nil => trivial
  | cons jobId rest ih =>
      refine ⟨?_, ?_⟩
      · rintro ⟨admission, -, -, -, -, hend⟩
        exact absurd hend hnow.ne
      · have hstep : (step host c (.call ctx (.run (.execute keeper jobId)))).Sound host :=
          step_sound hsound trivial
        apply ih hstep
        rcases step_call_cases host c ctx (.run (.execute keeper jobId)) with ⟨hcall, -⟩ |
          ⟨hsame, -⟩
        · exact (call_now hsound hcall).trans_lt hnow
        · rw [hsame]
          exact hnow

theorem plainHost_readOnly : ReadOnlyResolvers plainHost := fun _ _ _ => ⟨rfl, rfl⟩

theorem plainHost_blind (token : Address) (holders : List Address) :
    BlindTo plainHost token holders := by
  refine ⟨?_, ?_⟩
  · intro around around' resolver jobId _
    rfl
  · intro around around' executor target function args _
    rfl

/-- A job every second and a job every minute, both due since time `0`, at a later time. -/
def twoJobs (later : Timestamp) : List (Action Unit) :=
  [.call ⟨[⟨3⟩]⟩ (.admin (.setExecutor ⟨6⟩)),
    .call ⟨[⟨3⟩]⟩ (.admin (.setProtocolFee 1000 (some ⟨8⟩))),
    .call ⟨[⟨4⟩]⟩ (.keeper (.stake ⟨4⟩ 100)),
    .call ⟨[⟨5⟩]⟩ (.job (.createJobs ⟨5⟩ [{ minutely with interval := 1 }, minutely] [50, 50])),
    .advance later]

def twoJobsChain (later : Timestamp) : Chain Unit :=
  (machine plainHost).run (deployment ⟨3⟩ 0 100 10 1000) (twoJobs later)

theorem twoJobsChain_reachable {later : Timestamp} (hlater : later ≤ u64Max) :
    Reachable plainHost (twoJobsChain later) := by
  refine ⟨_, twoJobs later, deployment_deployed ⟨3⟩ 10 1000 (by decide) (by decide), ?_, rfl⟩
  simpa [twoJobs, Machine.Along, Admissible, Call.WellTyped, JobParams.WellTyped, minutely, u64Max,
    i128Max] using hlater

theorem batch_refines_sequence_twoJobs :
    (executeEach plainHost ⟨[⟨4⟩]⟩ ⟨4⟩ [0, 1, 0, 1] (twoJobsChain 60)).1 =
      [true, true, false, false] ∧
      ∃ c', executeBatch plainHost ⟨[⟨4⟩]⟩ (twoJobsChain 60) ⟨4⟩ [0, 1, 0, 1] =
          .ok ((executeEach plainHost ⟨[⟨4⟩]⟩ ⟨4⟩ [0, 1, 0, 1] (twoJobsChain 60)).1, c') ∧
        SameLedger c' (executeEach plainHost ⟨[⟨4⟩]⟩ ⟨4⟩ [0, 1, 0, 1] (twoJobsChain 60)).2 := by
  have hreach : Reachable plainHost (twoJobsChain 60) := twoJobsChain_reachable (by decide)
  have hauth : (authorizeKeeper plainHost ⟨[⟨4⟩]⟩ (twoJobsChain 60).reg ⟨4⟩).isOk = true := by
    decide
  refine ⟨by decide, ?_⟩
  cases hkeeper : authorizeKeeper plainHost ⟨[⟨4⟩]⟩ (twoJobsChain 60).reg ⟨4⟩ with
  | error reason =>
      rw [hkeeper] at hauth
      cases hauth
  | ok pair =>
      exact (batch_refines_sequence plainHost_paysOut plainHost_readOnly
        (plainHost_blind _ _) hreach
        hkeeper (by decide) (by decide)).mpr (neverOverflowing_of_lt hreach.sound (by decide) _)

/-- At the last moment the sequence skips the job every second and runs the other one; the
batch fails as a whole. -/
theorem batch_fails_at_the_end :
    PaysOut plainHost ∧ ReadOnlyResolvers plainHost ∧
      (∀ token holders, BlindTo plainHost token holders) ∧
        Reachable plainHost (twoJobsChain u64Max) ∧
      (authorizeKeeper plainHost ⟨[⟨4⟩]⟩ (twoJobsChain u64Max).reg ⟨4⟩).isOk = true ∧
      (executeEach plainHost ⟨[⟨4⟩]⟩ ⟨4⟩ [0, 1] (twoJobsChain u64Max)).1 = [false, true] ∧
      ∀ result, executeBatch plainHost ⟨[⟨4⟩]⟩ (twoJobsChain u64Max) ⟨4⟩ [0, 1] ≠ .ok result := by
  refine ⟨plainHost_paysOut, plainHost_readOnly, plainHost_blind, twoJobsChain_reachable le_rfl,
    by decide, by decide, ?_⟩
  have hfails : (executeBatch plainHost ⟨[⟨4⟩]⟩ (twoJobsChain u64Max) ⟨4⟩ [0, 1]).isOk = false := by
    decide
  intro result hbatch
  rw [hbatch] at hfails
  cases hfails

end SoroCron
