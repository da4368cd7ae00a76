import SoroCron.Registry.Lives

/-! # Keeper records and the rotation

What one step can do to everything stored about one keeper, and what the window rotation
lists.
-/

namespace SoroCron

open Outcome Bounded

variable {World : Type} {host : Host World} {ctx : Ctx} {c c' : Chain World} {who : Address}

/-! ## Records -/

/-- Everything stored about a registered keeper. -/
def KeeperTable.recordOf (keepers : KeeperTable) (who : Address) : Option KeeperRecord :=
  (keepers.infos.get who).map (KeeperRecord.load keepers who)

/-- The record after one more missed window. -/
def KeeperRecord.miss (record : KeeperRecord) : KeeperRecord where
  info := { record.info with missed := satAdd32 record.info.missed 1 }
  recent := { record.recent with misses := smooth record.recent.misses maxBpsScale }

section Records

variable (keepers : KeeperTable) (other : Address)

theorem bondOf_eq_recordOf : keepers.bondOf who =
    (keepers.recordOf who).map fun record => (record.info.stake, record.info.unbondingAt) := by
  rw [KeeperTable.recordOf, Option.map_map]
  rfl

theorem recordOf_setKeeper (who : Address) (info : Keeper) :
    (keepers.setKeeper who info).recordOf other =
    if other = who then some (KeeperRecord.load keepers who info) else keepers.recordOf other := by
  rw [KeeperTable.recordOf, KeeperTable.setKeeper_infos, Store.get_set]
  split
  next heq =>
    rw [heq]
    rfl
  next => rfl

theorem recordOf_removeKeeper : (keepers.removeKeeper who).recordOf other =
    if other = who then none else keepers.recordOf other := by
  rw [KeeperTable.recordOf, KeeperTable.removeKeeper_infos, Store.get_remove]
  split
  · rfl
  next hne =>
    have hrecent : (keepers.removeKeeper who).getKeeperRecent other =
        keepers.getKeeperRecent other := by
      rw [KeeperTable.getKeeperRecent, KeeperTable.removeKeeper_recents,
        Store.get_remove_of_ne _ hne]
      rfl
    rw [KeeperTable.recordOf]
    congr 1
    funext info
    rw [KeeperRecord.load, hrecent]
    rfl

theorem recordOf_save (record : KeeperRecord) : (record.save keepers who).recordOf other =
    if other = who then some record else keepers.recordOf other := by
  have hrecent : (record.save keepers who).getKeeperRecent other =
      if other = who then record.recent else keepers.getKeeperRecent other := by
    rw [KeeperTable.getKeeperRecent, KeeperRecord.save, KeeperTable.setKeeperRecent_recents,
      Store.get_set]
    split
    · rfl
    · rfl
  rw [KeeperTable.recordOf, KeeperRecord.save, KeeperTable.setKeeperRecent_infos,
    KeeperTable.setKeeper_infos, Store.get_set]
  split
  next heq =>
    subst heq
    rw [if_pos rfl] at hrecent
    exact congrArg some (by rw [KeeperRecord.load, ← KeeperRecord.save, hrecent])
  next hne =>
    rw [if_neg hne] at hrecent
    rw [KeeperTable.recordOf]
    congr 1
    funext info
    rw [KeeperRecord.load, ← KeeperRecord.save, hrecent]
    rfl

theorem recordOf_noteMiss (missed : Address) : (keepers.noteMiss missed).recordOf other =
    if other = missed then (keepers.recordOf other).map KeeperRecord.miss
      else keepers.recordOf other := by
  rw [KeeperTable.recordOf, noteMiss_infos]
  by_cases heq : other = missed
  · rw [if_pos heq, if_pos heq, KeeperTable.recordOf, Option.map_map, Option.map_map]
    cases hinfo : keepers.infos.get other with
    | none => rfl
    | some info =>
        have hrecent := noteMiss_recents keepers missed other
        rw [if_pos ⟨heq, by rw [hinfo]; rfl⟩] at hrecent
        simp only [Option.map_some, Function.comp_apply, KeeperRecord.load, KeeperRecord.miss,
          hrecent]
  · have hrecent := noteMiss_recents keepers missed other
    rw [if_neg fun h => heq h.1] at hrecent
    rw [if_neg heq, if_neg heq, KeeperTable.recordOf]
    congr 1
    funext info
    rw [KeeperRecord.load, hrecent]
    rfl

end Records

/-! ## Moves -/

/-- The call pays out the stake of `who`. -/
def Call.Withdraws (ctx : Ctx) (who : Address) : Call → Prop
  | .keeper (.withdrawStake holder) => holder = who ∧ who ∈ ctx.signers
  | .keeper (.withdrawStakes holders) => who ∈ holders
  | _ => False

/-- What one step can do to the record of `who`. -/
inductive KeeperMove (host : Host World) (c : Chain World) (who : Address) :
    Action World → Option KeeperRecord → Option KeeperRecord → Prop where
  | kept {action : Action World} {found : Option KeeperRecord} :
      KeeperMove host c who action found found
  | registered {ctx : Ctx} {amount : ℤ} {record : KeeperRecord} (hsigned : who ∈ ctx.signers)
      (hfresh : record.info = { Keeper.fresh with stake := amount }) :
      KeeperMove host c who (.call ctx (.keeper (.stake who amount))) none (some record)
  | staked {ctx : Ctx} {amount : ℤ} {record : KeeperRecord} (hsigned : who ∈ ctx.signers)
      (hbonded : record.info.unbondingAt = none) :
      KeeperMove host c who (.call ctx (.keeper (.stake who amount))) (some record)
        (some { record with info := { record.info with stake := record.info.stake + amount } })
  | unbonded {ctx : Ctx} {record : KeeperRecord} (hsigned : who ∈ ctx.signers)
      (hbonded : record.info.unbondingAt = none) :
      KeeperMove host c who (.call ctx (.keeper (.beginUnbonding who))) (some record)
        (some { record with info := { record.info with
          unbondingAt := some (unbondingRelease c.now c.reg.config.unbondingPeriod
            c.reg.config.unbondingEpoch) } })
  | withdrawn {ctx : Ctx} {call : Call} {record : KeeperRecord} {release : Timestamp}
      (hcall : call.Withdraws ctx who) (hrelease : record.info.unbondingAt = some release)
      (hready : release ≤ c.now) : KeeperMove host c who (.call ctx call) (some record) none
  | ran {ctx : Ctx} {call : RunCall} {record record' : KeeperRecord} (hcaller : call.keeper = who)
      (hsigned : who ∈ ctx.signers) (hbonded : record.info.unbondingAt = none)
      (hstake : record'.info.stake = record.info.stake) (hstays : record'.info.unbondingAt = none) :
      KeeperMove host c who (.call ctx (.run call)) (some record) (some record')
  | missed {ctx : Ctx} {call : RunCall} {record : KeeperRecord} {charged : List (Execution World)}
      (hother : call.keeper ≠ who) (hbonded : record.info.unbondingAt = none)
      (hruns : ∀ e ∈ charged, .job e.jobId (.ran e) ∈ acts host c (.call ctx (.run call)) ∧
        assignedKeeper host e.before.chain.reg e.jobId = some who) :
      KeeperMove host c who (.call ctx (.run call)) (some record)
        (some (KeeperRecord.miss^[charged.length] record))

/-! ### Stakes -/

theorem releaseStake_recordOf {keeper : Address} {amount : ℤ}
    (h : releaseStake host c keeper = .ok (amount, c')) :
    (∃ record release, c.reg.keepers.recordOf keeper = some record ∧
      record.info.unbondingAt = some release ∧ release ≤ c.now) ∧
    ∀ who, c'.reg.keepers.recordOf who = if who = keeper then none
      else c.reg.keepers.recordOf who := by
  obtain ⟨info, release, paid, hinfo, hrelease, hready, hpaid, -, rfl⟩ := releaseStake_eq_ok.mp h
  refine ⟨⟨KeeperRecord.load c.reg.keepers keeper info, release, ?_, hrelease, hready⟩, ?_⟩
  · rw [KeeperTable.recordOf, hinfo, Option.map_some]
  · intro who
    rw [Chain.publish_reg, Chain.payOut_frame hpaid]
    exact recordOf_removeKeeper c.reg.keepers who

theorem releasesOf_subset (host : Host World) (keepers : List Address) (c : Chain World) :
    releasesOf host keepers c ⊆ keepers := by
  induction keepers generalizing c with
  | nil => exact List.nil_subset _
  | cons keeper rest ih =>
      unfold releasesOf
      split
      · exact List.cons_subset_cons keeper (ih _)
      · exact List.subset_cons_of_subset keeper (ih c)

/-- A list of releases removes listed keepers that are ready, and nobody else. -/
theorem releaseStakes_recordOf {keepers : List Address} {amounts : List ℤ}
    (h : releaseStakes host keepers c = .ok (amounts, c')) (who : Address) :
    c'.reg.keepers.recordOf who = c.reg.keepers.recordOf who ∨
      (who ∈ keepers ∧ c'.reg.keepers.recordOf who = none ∧
        ∃ record release, c.reg.keepers.recordOf who = some record ∧
          record.info.unbondingAt = some release ∧ release ≤ c.now) := by
  let I : List Address → Chain World → Prop := fun past middle => middle.now = c.now ∧
    (middle.reg.keepers.recordOf who = c.reg.keepers.recordOf who ∨
      (who ∈ past ∧ middle.reg.keepers.recordOf who = none ∧
        ∃ record release, c.reg.keepers.recordOf who = some record ∧
          record.info.unbondingAt = some release ∧ release ≤ c.now))
  have hlast : I ([] ++ releasesOf host keepers c) c' := by
    refine releaseStakes_history ?_ [] ⟨rfl, .inl rfl⟩ h
    rintro past middle after keeper amount ⟨hnow, hpast⟩ hrelease
    obtain ⟨⟨record, release, hfound, hbond, hready⟩, hafter⟩ := releaseStake_recordOf hrelease
    refine ⟨(releaseStake_keepersOnly hrelease).1.now.trans hnow, ?_⟩
    rw [hafter]
    by_cases heq : who = keeper
    · subst heq
      rw [if_pos rfl]
      refine .inr ⟨List.mem_append_right past (List.mem_singleton.mpr rfl), rfl, ?_⟩
      rcases hpast with hsame | ⟨-, hgone, -⟩
      · exact ⟨record, release, hsame ▸ hfound, hbond, hnow ▸ hready⟩
      · rw [hgone] at hfound
        cases hfound
    · rw [if_neg heq]
      exact hpast.imp_right fun ⟨hmem, hrest⟩ => ⟨List.mem_append_left [keeper] hmem, hrest⟩
  refine hlast.2.imp_right ?_
  rintro ⟨hmem, hrest⟩
  exact ⟨releasesOf_subset host keepers c hmem, hrest⟩

theorem keeperCall_move {call : KeeperCall} (h : keeperCall host ctx c call = .ok c')
    (who : Address) : KeeperMove host c who (.call ctx (.keeper call)) (c.reg.keepers.recordOf who)
      (c'.reg.keepers.recordOf who) := by
  cases call with
  | stake keeper amount =>
      obtain ⟨total, h⟩ := Result.chain_eq_ok.mp h
      obtain ⟨⟨-, ⟨hsigned, -⟩, -⟩, -, info, hinfo, hbonded, rfl, -, rfl⟩ := stake_eq_ok h
      have hafter := recordOf_setKeeper c.reg.keepers who keeper { info with
        stake := info.stake + amount }
      change KeeperMove host c who _ _ ((c.reg.keepers.setKeeper keeper _).recordOf who)
      rw [hafter]
      split
      next heq =>
        subst heq
        cases hget : c.reg.keepers.infos.get who with
        | none =>
            rw [hget, Option.getD_none] at hinfo
            subst hinfo
            rw [KeeperTable.recordOf, hget, Option.map_none]
            -- The first stake of a keeper without a record.
            refine .registered hsigned ?_
            rw [KeeperRecord.load, Keeper.fresh, zero_add]
        | some stored =>
            rw [hget, Option.getD_some] at hinfo
            subst hinfo
            rw [KeeperTable.recordOf, hget, Option.map_some]
            exact .staked hsigned hbonded
      next => exact .kept
  | beginUnbonding keeper =>
      obtain ⟨release, h⟩ := Result.chain_eq_ok.mp h
      obtain ⟨⟨hsigned, -⟩, info, hinfo, hbonded, rfl, rfl⟩ := beginUnbonding_eq_ok.mp h
      have hafter := recordOf_setKeeper c.reg.keepers who keeper { info with
        unbondingAt := some (unbondingRelease c.now c.reg.config.unbondingPeriod
          c.reg.config.unbondingEpoch) }
      change KeeperMove host c who _ _ ((c.reg.keepers.setKeeper keeper _).recordOf who)
      rw [hafter]
      split
      next heq =>
        subst heq
        rw [KeeperTable.recordOf, hinfo, Option.map_some]
        exact .unbonded hsigned hbonded
      next => exact .kept
  | withdrawStake keeper =>
      obtain ⟨amount, h⟩ := Result.chain_eq_ok.mp h
      obtain ⟨⟨hsigned, -⟩, hrelease⟩ := withdrawStake_eq_ok.mp h
      obtain ⟨⟨record, release, hfound, hbond, hready⟩, hafter⟩ := releaseStake_recordOf hrelease
      rw [hafter]
      split
      next heq =>
        subst heq
        rw [hfound]
        exact .withdrawn ⟨rfl, hsigned⟩ hbond hready
      next => exact .kept
  | withdrawStakes keepers =>
      obtain ⟨amounts, h⟩ := Result.chain_eq_ok.mp h
      rcases releaseStakes_recordOf (withdrawStakes_eq_ok.mp h).2 who with
        hsame | ⟨hmem, hgone, record, release, hfound, hbond, hready⟩
      · rw [hsame]
        exact .kept
      · have hcall : Call.Withdraws ctx who (.keeper (.withdrawStakes keepers)) := hmem
        rw [hgone, hfound]
        exact .withdrawn hcall hbond hready

/-! ### Runs -/

section Runs

variable {executor keeper : Address} {b b' : Batch World} {info : Keeper} {jobId : JobId}

/-- What a run does to another keeper's record. -/
theorem Ran.recordOf {r : Receipt World} (hran : Ran host executor keeper jobId b b' r)
    (who : Address) : b'.chain.reg.keepers.recordOf who = b.chain.reg.keepers.recordOf who ∨
      (assignedKeeper host b.chain.reg jobId = some who ∧
        b'.chain.reg.keepers.recordOf who =
          (b.chain.reg.keepers.recordOf who).map KeeperRecord.miss) := by
  rw [hran.reg, Receipt.regAfter]
  cases hcharged : r.charged b.chain.reg jobId b.chain.now with
  | none => exact .inl rfl
  | some missed =>
      rw [Option.elim_some, recordOf_noteMiss]
      split
      next heq =>
        subst heq
        refine .inr ⟨?_, rfl⟩
        have hassigned := (Option.filter_eq_some_iff.mp hcharged).1
        rw [hran.admitted.assigned, Option.filter_eq_some_iff] at hassigned
        rw [assignedKeeper, hran.admitted.parts]
        exact hassigned.1
      next => exact .inl rfl

/-- During the runs of a call other records change only by misses of reserved runs. -/
theorem runJobs_recordOf {jobIds : List JobId} {ran : List Bool}
    (h : runJobs host executor keeper jobIds (startBatch c keeper info) = .ok (ran, b))
    (who : Address) : ∃ charged : List (Execution World),
      (∀ e ∈ charged, e ∈ runsOf host executor keeper jobIds (startBatch c keeper info) ∧
        assignedKeeper host e.before.chain.reg e.jobId = some who) ∧
      b.chain.reg.keepers.recordOf who =
        (c.reg.keepers.recordOf who).map (KeeperRecord.miss^[charged.length]) := by
  let I : List (Execution World) → Batch World → Prop := fun past b =>
    ∃ charged : List (Execution World),
      (∀ e ∈ charged, e ∈ past ∧ assignedKeeper host e.before.chain.reg e.jobId = some who) ∧
      b.chain.reg.keepers.recordOf who =
        (c.reg.keepers.recordOf who).map (KeeperRecord.miss^[charged.length])
  have hlast : I ([] ++ runsOf host executor keeper jobIds (startBatch c keeper info)) b := by
    refine runJobs_history ?_ ?_ [] ⟨[], fun e hmem => absurd hmem List.not_mem_nil, ?_⟩ h
    · exact fun past b jobId spec hpast => hpast
    · rintro past b b' jobId r ⟨charged, hpast, hrecord⟩ hran
      rcases hran.recordOf who with hsame | ⟨hassigned, hmissed⟩
      · exact ⟨charged, fun e hmem => ⟨List.mem_append_left _ (hpast e hmem).1, (hpast e hmem).2⟩,
          hsame.trans hrecord⟩
      · refine ⟨{ jobId, executor, keeper, before := b, after := b' } :: charged, ?_, ?_⟩
        · intro e hmem
          rcases List.mem_cons.mp hmem with rfl | hold
          · exact ⟨List.mem_append_right past (List.mem_singleton.mpr rfl), hassigned⟩
          · exact ⟨List.mem_append_left _ (hpast e hold).1, (hpast e hold).2⟩
        · rw [hmissed, hrecord, Option.map_map, List.length_cons, Function.iterate_succ']
    · exact (congrFun Option.map_id (c.reg.keepers.recordOf who)).symm
  exact hlast

/-- A keeper that a run was reserved for is not unbonding. -/
theorem bonded_of_assigned {reg : Registry} {record : KeeperRecord}
    (hassigned : assignedKeeper host reg jobId = some who)
    (hrecord : reg.keepers.bondOf who = some (record.info.stake, record.info.unbondingAt)) :
    record.info.unbondingAt = none := by
  simp only [assignedKeeper, Option.bind_eq_bind, Option.bind_eq_some_iff, Prod.exists] at hassigned
  obtain ⟨spec, state, -, hassigned⟩ := hassigned
  obtain ⟨-, -, stake, hbond, -⟩ := assignedKeeperFor_eq_some.mp hassigned
  exact (Prod.mk.inj (Option.some.inj (hrecord.symm.trans hbond))).2

theorem runCall_move {call : RunCall} (hsound : c.Sound host) (h : runCall host ctx c call = .ok c')
    (who : Address) : KeeperMove host c who (.call ctx (.run call)) (c.reg.keepers.recordOf who)
      (c'.reg.keepers.recordOf who) := by
  obtain ⟨executor, info, ran, b, hauth, hruns, hfinish, hacts⟩ := runCall_eq_ok h
  obtain ⟨-, -, ⟨hsigned, -⟩, hinfo, hactive⟩ := authorizeKeeper_eq_ok.mp hauth
  have hunder := runJobs_underway hsound.config hsound.jobs hruns
  rw [finish_eq_ok hunder.keeperFees hunder.protocolFees hfinish]
  change KeeperMove host c who _ _ ((b.record.save b.chain.reg.keepers call.keeper).recordOf who)
  rw [recordOf_save]
  have hbonded := (ensureActiveKeeper_eq_ok.mp hactive).1
  split
  next heq =>
    rw [heq, KeeperTable.recordOf, hinfo, Option.map_some]
    exact .ran rfl hsigned hbonded hunder.stake (hunder.unbondingAt.trans hbonded)
  next hne =>
    obtain ⟨charged, hcharged, hrecord⟩ := runJobs_recordOf hruns who
    rw [hrecord]
    cases hfound : c.reg.keepers.recordOf who with
    | none => exact .kept
    | some record =>
        cases charged with
        | nil => exact .kept
        | cons first rest =>
            refine .missed (Ne.symm hne) ?_ ?_
            · obtain ⟨hmem, hassigned⟩ := hcharged first List.mem_cons_self
              have hbefore := runsOf_underway hsound.config hsound.jobs hruns first hmem
              apply bonded_of_assigned hassigned
              rw [hbefore.bonds, bondOf_eq_recordOf, hfound, Option.map_some]
            · intro e hmem
              have hperformed : Call.perform host ctx c (.run call) = .ok c' := h
              refine ⟨?_, (hcharged e hmem).2⟩
              rw [acts, hperformed]
              dsimp only
              rw [hacts]
              exact List.mem_map.mpr ⟨e, (hcharged e hmem).1, rfl⟩

end Runs

/-- What a step can do to one keeper's record. -/
theorem step_move (action : Action World) (hsound : c.Sound host) (who : Address) :
    KeeperMove host c who action (c.reg.keepers.recordOf who)
      ((step host c action).reg.keepers.recordOf who) := by
  cases action with
  | call ctx call =>
      rcases step_call_cases host c ctx call with ⟨hcall, -⟩ | ⟨hsame, -⟩
      · cases call with
        | job call =>
            rw [(jobCall_jobsOnly hcall).keepers]
            exact .kept
        | run call => exact runCall_move hsound hcall who
        | keeper call => exact keeperCall_move hcall who
        | admin call =>
            obtain ⟨-, -, hreg⟩ := adminCall_eq_ok hcall
            rw [hreg, Chain.publish_reg, (adminCall_settingsOnly call c.reg c.now).keepers]
            exact .kept
      · rw [hsame]
        exact .kept
  | _ => exact .kept

end SoroCron
