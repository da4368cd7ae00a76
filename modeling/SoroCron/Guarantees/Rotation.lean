import SoroCron.Registry.Deployment
import SoroCron.Registry.Records

/-! # Keepers and the rotation

A keeper is absent, staked or unbonding, and moves only from each of these to the next. The
window rotation lists staked keepers only, each of them once.
-/

namespace SoroCron

open Outcome Bounded

variable {World : Type} {host : Host World} {c c' : Chain World} {ctx : Ctx} {who : Address}
  {action : Action World}

/-! ## The rotation -/

structure KeeperTable.Rotation (keepers : KeeperTable) : Prop where
  nodup : keepers.active.Nodup
  room : keepers.active.length ≤ maxActiveKeepers
  bonded : ∀ who ∈ keepers.active, ∃ stake, keepers.bondOf who = some (stake, none)

namespace KeeperTable.Rotation

variable {keepers keepers' : KeeperTable}

theorem empty : ({} : KeeperTable).Rotation :=
  ⟨List.nodup_nil, Nat.zero_le _, fun _ hmem => absurd hmem List.not_mem_nil⟩

/-- Whoever is in the rotation stays bonded when others' bonds change. -/
theorem congr (h : keepers.Rotation) (hactive : keepers'.active = keepers.active)
    (hbonds : ∀ who ∈ keepers.active, keepers'.bondOf who = keepers.bondOf who) :
    keepers'.Rotation := by
  refine ⟨hactive ▸ h.nodup, hactive ▸ h.room, ?_⟩
  intro who hmem
  rw [hactive] at hmem
  rw [hbonds who hmem]
  exact h.bonded who hmem

/-- A keeper joins when its stake makes it one. -/
theorem join (h : keepers.Rotation) (who : Address) {info : Keeper}
    (hbonded : info.unbondingAt = none) :
    ((keepers.setKeeper who info).addActiveKeeper who maxActiveKeepers).Rotation := by
  have hbond :
      ∀ other, ((keepers.setKeeper who info).addActiveKeeper who maxActiveKeepers).bondOf other =
      if other = who then some (info.stake, info.unbondingAt) else keepers.bondOf other := by
    intro other
    exact bondOf_setKeeper keepers who other info
  have hstill : ∀ other ∈ keepers.active, ∃ stake,
      ((keepers.setKeeper who info).addActiveKeeper who maxActiveKeepers).bondOf other =
        some (stake, none) := by
    intro other hmem
    rw [hbond]
    split
    · exact ⟨info.stake, by rw [hbonded]⟩
    · exact h.bonded other hmem
  cases hjoins : keepers.joins who maxActiveKeepers with
  | false =>
      have hactive : ((keepers.setKeeper who info).addActiveKeeper who maxActiveKeepers).active =
          keepers.active := if_neg (Bool.eq_false_iff.mp hjoins)
      exact ⟨hactive ▸ h.nodup, hactive ▸ h.room, fun other hmem => hstill other (hactive ▸ hmem)⟩
  | true =>
      have hactive : ((keepers.setKeeper who info).addActiveKeeper who maxActiveKeepers).active =
          keepers.active ++ [who] := if_pos hjoins
      simp only [KeeperTable.joins, Bool.not_eq_true', Bool.or_eq_false_iff,
        decide_eq_false_iff_not, not_le] at hjoins
      obtain ⟨hnew, hroom⟩ := hjoins
      refine ⟨?_, ?_, ?_⟩
      · rw [hactive]
        exact List.nodup_append.mpr ⟨h.nodup, List.nodup_singleton who, by
          rintro listed hmem _ hlast rfl
          cases List.mem_singleton.mp hlast
          exact hnew hmem⟩
      · rw [hactive, List.length_append]
        exact hroom
      · intro other hmem
        rw [hactive] at hmem
        rcases List.mem_append.mp hmem with hold | hlast
        · exact hstill other hold
        · cases List.mem_singleton.mp hlast
          refine ⟨info.stake, ?_⟩
          rw [hbond, if_pos rfl, hbonded]

/-- A keeper leaves before it unbonds. -/
theorem leave (h : keepers.Rotation) (who : Address) (info : Keeper) :
    ((keepers.setKeeper who info).removeActiveKeeper who).Rotation := by
  refine ⟨h.nodup.erase who, ?_, ?_⟩
  · exact (List.length_erase_le).trans h.room
  · intro other hmem
    obtain ⟨hne, hlisted⟩ := h.nodup.mem_erase_iff.mp hmem
    have hbond := bondOf_setKeeper keepers who other info
    rw [if_neg hne] at hbond
    exact hbond ▸ h.bonded other hlisted

end KeeperTable.Rotation

theorem releaseStake_rotation {keeper : Address} {amount : ℤ} (hrotation : c.reg.keepers.Rotation)
    (h : releaseStake host c keeper = .ok (amount, c')) : c'.reg.keepers.Rotation := by
  obtain ⟨⟨release, hbond, -⟩, hbonds⟩ := releaseStake_bondOf h
  have hactive : c'.reg.keepers.active = c.reg.keepers.active := by
    obtain ⟨info, release, paid, -, -, -, hpaid, -, rfl⟩ := releaseStake_eq_ok.mp h
    rw [Chain.publish_reg, Chain.payOut_frame hpaid]
    rfl
  apply hrotation.congr hactive
  intro who hmem
  rw [hbonds, if_neg]
  rintro rfl
  obtain ⟨stake, hstaked⟩ := hrotation.bonded who hmem
  exact absurd (Prod.mk.inj (Option.some.inj (hbond.symm.trans hstaked))).2 nofun

theorem keeperCall_rotation {call : KeeperCall} (hrotation : c.reg.keepers.Rotation)
    (h : keeperCall host ctx c call = .ok c') : c'.reg.keepers.Rotation := by
  cases call with
  | stake keeper amount =>
      obtain ⟨total, h⟩ := Result.chain_eq_ok.mp h
      obtain ⟨-, -, info, -, hbonded, -, -, rfl⟩ := stake_eq_ok h
      exact hrotation.join keeper hbonded
  | beginUnbonding keeper =>
      obtain ⟨release, h⟩ := Result.chain_eq_ok.mp h
      obtain ⟨-, info, -, -, -, rfl⟩ := beginUnbonding_eq_ok.mp h
      exact hrotation.leave keeper _
  | withdrawStake keeper =>
      obtain ⟨amount, h⟩ := Result.chain_eq_ok.mp h
      exact releaseStake_rotation hrotation (withdrawStake_eq_ok.mp h).2
  | withdrawStakes keepers =>
      obtain ⟨amounts, h⟩ := Result.chain_eq_ok.mp h
      refine releaseStakes_history (I := fun _ middle => middle.reg.keepers.Rotation) ?_
        [] hrotation
        (withdrawStakes_eq_ok.mp h).2
      intro past middle after keeper amount hmiddle hrelease
      exact releaseStake_rotation hmiddle hrelease

theorem runCall_rotation {call : RunCall} (hsound : c.Sound host)
    (h : runCall host ctx c call = .ok c')
    (hrotation : c.reg.keepers.Rotation) : c'.reg.keepers.Rotation := by
  obtain ⟨executor, info, ran, b, hauth, hruns, hfinish, -⟩ := runCall_eq_ok h
  obtain ⟨-, -, -, hinfo, -⟩ := authorizeKeeper_eq_ok.mp hauth
  have hunder := runJobs_underway hsound.config hsound.jobs hruns
  rw [finish_eq_ok hunder.keeperFees hunder.protocolFees hfinish]
  exact hrotation.congr hunder.active fun who _ => hunder.bonds_saved hinfo who

theorem step_rotation (action : Action World) (hsound : c.Sound host)
    (hrotation : c.reg.keepers.Rotation) : (step host c action).reg.keepers.Rotation := by
  refine step_keepers hrotation action ?_ ?_
  · intro ctx call c' hcall
    exact runCall_rotation hsound hcall hrotation
  · intro ctx call c' hcall
    exact keeperCall_rotation hrotation hcall

theorem Reachable.rotation (hreach : Reachable host c) : c.reg.keepers.Rotation := by
  refine hreach.invariant (I := fun c => c.reg.keepers.Rotation) ?_ ?_
  · intro c hdeployed
    obtain ⟨config, hreg, -⟩ := hdeployed.fresh
    rw [hreg]
    exact .empty
  · intro c action hreach hadm hrotation
    exact step_rotation action hreach.sound hrotation

/-! ## Unbonding -/

section Unbonding

variable {record : KeeperRecord} {release : Timestamp}

theorem bond_of_record (hrecord : c.reg.keepers.recordOf who = some record)
    (hrelease : record.info.unbondingAt = some release) :
    c.reg.keepers.bondOf who = some (record.info.stake, some release) := by
  rw [bondOf_eq_recordOf, hrecord, Option.map_some, hrelease]

/-- The record of a keeper that is unbonding changes only by its removal. -/
theorem KeeperMove.of_unbonding {after : Option KeeperRecord}
    (h : KeeperMove host c who action (some record) after)
    (hrelease : record.info.unbondingAt = some release) : after = some record ∨
      (after = none ∧ ∃ ctx call, action = .call ctx call ∧ call.Withdraws ctx who ∧
        release ≤ c.now) := by
  have hbusy : record.info.unbondingAt ≠ none := by
    rw [hrelease]
    exact nofun
  cases h with
  | kept => exact .inl rfl
  | staked hsigned hbonded => exact absurd hbonded hbusy
  | unbonded hsigned hbonded => exact absurd hbonded hbusy
  | withdrawn hcall hstored hready =>
      cases hrelease.symm.trans hstored
      exact .inr ⟨rfl, _, _, rfl, hcall, hready⟩
  | ran hcaller hsigned hbonded => exact absurd hbonded hbusy
  | missed hother hbonded => exact absurd hbonded hbusy

/-- What holds of a keeper while it is unbonding. -/
structure Retired (host : Host World) (c : Chain World) (who : Address) (record : KeeperRecord)
    (release : Timestamp) : Prop where
  unlisted : who ∉ c.reg.keepers.active
  unassigned : ∀ jobId, assignedKeeper host c.reg jobId ≠ some who
  noStake : ∀ ctx amount c', keeperCall host ctx c (.stake who amount) ≠ .ok c'
  noRuns : ∀ ctx call c', call.keeper = who → runCall host ctx c call ≠ .ok c'
  /-- The record stays as it is until it is withdrawn, at its release time or later. -/
  kept : ∀ actions, (machine host).Along (Admissible host) c actions →
    ((machine host).run c actions).reg.keepers.recordOf who = some record ∨
      ∃ first ctx call rest, actions = first ++ .call ctx call :: rest ∧
        ((machine host).run c first).reg.keepers.recordOf who = some record ∧
        call.Withdraws ctx who ∧ release ≤ ((machine host).run c first).now

theorem retired (hsound : c.Sound host) (hrotation : c.reg.keepers.Rotation)
    (hrecord : c.reg.keepers.recordOf who = some record)
    (hrelease : record.info.unbondingAt = some release) : Retired host c who record release := by
  have hbond := bond_of_record hrecord hrelease
  refine ⟨?_, ?_, ?_, ?_, ?_⟩
  · intro hmem
    obtain ⟨stake, hstaked⟩ := hrotation.bonded who hmem
    exact absurd (Prod.mk.inj (Option.some.inj (hbond.symm.trans hstaked))).2 nofun
  · intro jobId hassigned
    have hrecorded : c.reg.keepers.bondOf who =
        some (record.info.stake, record.info.unbondingAt) := by
      rw [hbond, hrelease]
    have hnone := bonded_of_assigned hassigned hrecorded
    rw [hrelease] at hnone
    cases hnone
  · intro ctx amount c' hcall
    obtain ⟨total, hstake⟩ := Result.chain_eq_ok.mp hcall
    rcases (stake_bondOf hstake).1 with ⟨hnone, -⟩ | ⟨before, hstaked, -⟩
    · rw [hbond] at hnone
      cases hnone
    · exact absurd (Prod.mk.inj (Option.some.inj (hbond.symm.trans hstaked))).2 nofun
  · rintro ctx call c' rfl hcall
    obtain ⟨executor, info, ran, b, hauth, -⟩ := runCall_eq_ok hcall
    obtain ⟨-, -, -, hinfo, hactive⟩ := authorizeKeeper_eq_ok.mp hauth
    have hstaked := bondOf_of_info hinfo
    rw [(ensureActiveKeeper_eq_ok.mp hactive).1] at hstaked
    exact absurd (Prod.mk.inj (Option.some.inj (hbond.symm.trans hstaked))).2 nofun
  · intro actions halong
    have hlast := Machine.kept_until (m := machine host) (I := fun c => c.Sound host)
      (fun c : Chain World => c.reg.keepers.recordOf who)
      (fun c action => ∃ ctx call, action = .call ctx call ∧ call.Withdraws ctx who ∧
        release ≤ c.now)
      (fun c action hsound hadm => step_sound hsound hadm) ?_ hsound hrecord halong
    · rcases hlast with hkept |
        ⟨first, action, rest, rfl, hfound, ctx, call, rfl, hwithdraws, hready⟩
      · exact .inl hkept
      · exact .inr ⟨first, ctx, call, rest, rfl, hfound, hwithdraws, hready⟩
    · intro c action hsound _ hfound
      have hmove := step_move action hsound who
      rw [hfound] at hmove
      exact (hmove.of_unbonding hrelease).imp_right And.right

end Unbonding

/-! ## Other keepers -/

/-- The keeper a call is made for. -/
def Call.By (who : Address) : Call → Prop
  | .run runs => runs.keeper = who
  | .keeper (.stake holder _) => holder = who
  | .keeper (.beginUnbonding holder) => holder = who
  | .keeper (.withdrawStake holder) => holder = who
  | _ => False

/-- The keeper made this call itself. -/
def Action.SignedFor (who : Address) : Action World → Prop
  | .call ctx made => made.By who ∧ who ∈ ctx.signers
  | _ => False

/-- Only the missed count and the recent average of misses differ. -/
structure OnlyMissed (record record' : KeeperRecord) : Prop where
  info : record'.info = { record.info with missed := record'.info.missed }
  recent : record'.recent = { record.recent with misses := record'.recent.misses }

theorem onlyMissed_iterate (record : KeeperRecord) (n : ℕ) :
    OnlyMissed record (KeeperRecord.miss^[n] record) := by
  induction n with
  | zero => exact ⟨rfl, rfl⟩
  | succ n ih =>
      rw [Function.iterate_succ', Function.comp_apply]
      constructor
      · rw [KeeperRecord.miss, ih.info]
      · rw [KeeperRecord.miss, ih.recent]

/-- What a step can do to the record of a keeper that did not sign it. -/
def NotSigned (host : Host World) (c : Chain World) (action : Action World) (who : Address)
    (found after : Option KeeperRecord) : Prop :=
  after = found ∨
    (∃ ctx keepers record release, action = .call ctx (.keeper (.withdrawStakes keepers)) ∧
      who ∈ keepers ∧
      found = some record ∧ record.info.unbondingAt = some release ∧ release ≤ c.now ∧
        after = none) ∨
    ∃ record record', found = some record ∧ after = some record' ∧ OnlyMissed record record' ∧
      ∃ e : Execution World, .job e.jobId (.ran e) ∈ acts host c action ∧
        assignedKeeper host e.before.chain.reg e.jobId = some who

theorem KeeperMove.notSigned {found after : Option KeeperRecord}
    (h : KeeperMove host c who action found after)
    (hother : ¬ action.SignedFor who) : NotSigned host c action who found after := by
  cases h with
  | kept => exact .inl rfl
  | registered hsigned => exact absurd ⟨rfl, hsigned⟩ hother
  | staked hsigned => exact absurd ⟨rfl, hsigned⟩ hother
  | unbonded hsigned => exact absurd ⟨rfl, hsigned⟩ hother
  | ran hcaller hsigned => exact absurd ⟨hcaller, hsigned⟩ hother
  | @withdrawn ctx call record release hcall hrelease hready =>
      cases call with
      | keeper call =>
          cases call with
          | withdrawStakes keepers =>
              exact .inr
                (.inl ⟨ctx, keepers, record, release, rfl, hcall, rfl, hrelease, hready, rfl⟩)
          | withdrawStake keeper => exact absurd hcall hother
          | _ => cases hcall
      | _ => cases hcall
  | @missed ctx call record charged hother hbonded hruns =>
      cases charged with
      | nil => exact .inl rfl
      | cons e rest =>
          obtain ⟨hran, hassigned⟩ := hruns e List.mem_cons_self
          exact .inr (.inr ⟨record, _, rfl, rfl, onlyMissed_iterate record _, e, hran, hassigned⟩)

/-- In every reachable chain the rotation lists at most 64 keepers, each once and none of them
unbonding. Whatever happens next, each keeper moves only from absent to staked, from staked to
unbonding, and from unbonding to absent once its release time has come; while it is unbonding
nothing of it changes, no run is reserved for it, and it can neither run jobs nor stake; and a
keeper that did not sign the step is at most released by a list it is on, or charged with misses
of runs that were reserved for it. -/
theorem keeper_lifecycle (hreach : Reachable host c) (action : Action World) (who : Address) :
    c.reg.keepers.Rotation ∧
      KeeperMove host c who action (c.reg.keepers.recordOf who)
        ((step host c action).reg.keepers.recordOf who) ∧
      (∀ record release, c.reg.keepers.recordOf who = some record →
        record.info.unbondingAt = some release →
        Retired host c who record release) ∧
      (¬ action.SignedFor who → NotSigned host c action who (c.reg.keepers.recordOf who)
        ((step host c action).reg.keepers.recordOf who)) := by
  have hmove := step_move action hreach.sound who
  refine ⟨hreach.rotation, hmove, ?_, hmove.notSigned⟩
  intro record release hrecord hrelease
  exact retired hreach.sound hreach.rotation hrecord hrelease

/-- Two keepers stake, and the first one waits for its stake. -/
def unbondingRun : List (Action Unit) :=
  [.call ⟨[⟨4⟩]⟩ (.keeper (.stake ⟨4⟩ 100)),
    .call ⟨[⟨9⟩]⟩ (.keeper (.stake ⟨9⟩ 100)),
    .call ⟨[⟨4⟩]⟩ (.keeper (.beginUnbonding ⟨4⟩)),
    .advance 1010]

/-- Its record until it is released. -/
def unbondingRecord : KeeperRecord where
  info := { Keeper.fresh with stake := 100, unbondingAt := some 1010 }
  recent := {}

/-- Anybody can release the first keeper then, and only that one. -/
theorem keeper_lifecycle_released :
    let c := (machine plainHost).run (deployment ⟨3⟩ 1000 100 10 1000) unbondingRun
    let action := Action.call ⟨[]⟩ (.keeper (.withdrawStakes [⟨4⟩, ⟨9⟩]))
    Retired plainHost c ⟨4⟩ unbondingRecord 1010 ∧
      KeeperMove plainHost c ⟨4⟩ action (some unbondingRecord) none ∧
      (step plainHost c action).reg.keepers.active = [⟨9⟩] := by
  intro c action
  have hadm : (machine plainHost).Along (Admissible plainHost) (deployment ⟨3⟩ 1000 100 10 1000)
      unbondingRun := by
    simp [unbondingRun, Machine.Along, Admissible, Call.WellTyped, u64Max]
  have hreach : Reachable plainHost c :=
    ⟨_, _, deployment_deployed ⟨3⟩ 10 1000 (by decide) (by decide), hadm, rfl⟩
  have hrecord : c.reg.keepers.recordOf ⟨4⟩ = some unbondingRecord := rfl
  have hreleased : (step plainHost c action).reg.keepers.recordOf ⟨4⟩ = none := rfl
  obtain ⟨-, hmove, hretired, -⟩ := keeper_lifecycle hreach action ⟨4⟩
  rw [hrecord, hreleased] at hmove
  exact ⟨hretired _ _ hrecord rfl, hmove, rfl⟩

end SoroCron
