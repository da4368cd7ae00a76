import SoroCron.Foundation.Settling
import SoroCron.Registry.Records

/-! # Keeper reputation

The summary by which keepers are judged, and the range of the miss average it shows.
-/

namespace SoroCron

open Outcome Bounded

/-! ## The summary -/

structure KeeperStats where
  stake : ℤ
  executions : ℕ
  averageLateness : ℕ
  missed : ℕ
  slashed : ℤ
  eligible : Bool
  recentLateness : ℕ
  recentMissBps : ℕ

/-- A conversion with `as u32` keeps the low bits. -/
def asU32 (value : ℕ) : ℕ := value % (u32Max + 1)

theorem asU32_eq {value : ℕ} (hfits : value ≤ u32Max) : asU32 value = value :=
  Nat.mod_eq_of_lt (Nat.lt_succ_of_le hfits)

def keeperStats (reg : Registry) (keeper : Address) : Option KeeperStats := do
  let info ← reg.keepers.infos.get keeper
  let recent := reg.keepers.getKeeperRecent keeper
  return {
    stake := info.stake
    executions := info.executions
    averageLateness := if info.executions = 0 then 0 else info.totalLateness / info.executions
    missed := info.missed
    slashed := info.slashed
    eligible := (ensureActiveKeeper reg.config info).isOk
    recentLateness := recent.lateness / 8
    recentMissBps := asU32 (recent.misses / 8) }

theorem keeperStats_misses {reg : Registry} {keeper : Address} {stats : KeeperStats}
    (h : keeperStats reg keeper = some stats) :
    stats.recentMissBps = asU32 ((reg.keepers.getKeeperRecent keeper).misses / 8) := by
  simp only [keeperStats, Option.bind_eq_bind, Option.bind_eq_some_iff, Option.pure_def,
    Option.some.injEq] at h
  obtain ⟨info, -, rfl⟩ := h
  rfl

/-! ## Averages -/

section Averages

variable {scaled scaled' sample sample' : ℕ}

theorem smooth_le_u64Max (scaled sample : ℕ) : smooth scaled sample ≤ u64Max := satAdd_le_top _ _

theorem smooth_le_blend (scaled sample : ℕ) :
    smooth scaled sample ≤ Settling.blend 8 sample scaled :=
  satAdd_le _ _

/-- An average that starts in range stays in the range of its samples. -/
theorem smooth_le_of_le {top : ℕ} (hscaled : scaled ≤ 8 * top) (hsample : sample ≤ top) :
    smooth scaled sample ≤ 8 * top := by
  have hblend := smooth_le_blend scaled sample
  unfold Settling.blend at hblend
  omega

theorem smooth_mono (hscaled : scaled ≤ scaled') (hsample : sample ≤ sample') :
    smooth scaled sample ≤ smooth scaled' sample' := by
  have hblend := Settling.blend_mono 8 hscaled hsample
  exact min_le_min_right u64Max hblend

/-- When the whole band of a sample fits, the addition never saturates. -/
theorem smooth_eq_blend (hscaled : scaled ≤ u64Max) (hband : 8 * sample + 7 ≤ u64Max) :
    smooth scaled sample = Settling.blend 8 sample scaled := by
  apply satAdd_eq
  omega

theorem smooth_iterate (hscaled : scaled ≤ u64Max) (hband : 8 * sample + 7 ≤ u64Max) (n : ℕ) :
    (fun value => smooth value sample)^[n] scaled = (Settling.blend 8 sample)^[n] scaled := by
  have hfits : (Settling.blend 8 sample)^[n] scaled ≤ u64Max ∧
      (fun value => smooth value sample)^[n] scaled = (Settling.blend 8 sample)^[n] scaled := by
    induction n with
    | zero => exact ⟨hscaled, rfl⟩
    | succ n ih =>
        rw [Function.iterate_succ_apply', Function.iterate_succ_apply', ih.2,
          smooth_eq_blend ih.1 hband, ← smooth_eq_blend ih.1 hband]
        exact ⟨smooth_le_u64Max _ _, rfl⟩
  exact hfits.2

end Averages

/-! ## The miss average -/

/-- Every miss average shows at most all of a keeper's runs and windows as missed. -/
def KeeperTable.MissesInRange (keepers : KeeperTable) : Prop :=
  ∀ who, (keepers.getKeeperRecent who).misses ≤ 8 * maxBpsScale

namespace KeeperTable.MissesInRange

variable {keepers keepers' : KeeperTable}

theorem congr (h : keepers.MissesInRange) (hrecents : keepers'.recents = keepers.recents) :
    keepers'.MissesInRange := by
  intro who
  rw [getKeeperRecent, hrecents]
  exact h who

theorem removeKeeper (h : keepers.MissesInRange) (keeper : Address) :
    (keepers.removeKeeper keeper).MissesInRange := by
  intro who
  rw [getKeeperRecent, removeKeeper_recents, Store.get_remove]
  split
  · exact Nat.zero_le _
  · exact h who

theorem save (h : keepers.MissesInRange) (keeper : Address) {record : KeeperRecord}
    (hrecord : record.recent.misses ≤ 8 * maxBpsScale) :
    (record.save keepers keeper).MissesInRange := by
  intro who
  rw [getKeeperRecent, KeeperRecord.save, setKeeperRecent_recents, Store.get_set]
  split
  · exact hrecord
  · exact h who

theorem noteMiss (h : keepers.MissesInRange) (missed : Address) :
    (keepers.noteMiss missed).MissesInRange := by
  intro who
  rw [noteMiss_recents]
  split
  · exact smooth_le_of_le (h who) le_rfl
  · exact h who

end KeeperTable.MissesInRange

section Steps

variable {World : Type} {host : Host World} {ctx : Ctx} {c c' : Chain World}
  {executor keeper : Address}

theorem releaseStake_misses {amount : ℤ} (h : releaseStake host c keeper = .ok (amount, c'))
    (hmisses : c.reg.keepers.MissesInRange) : c'.reg.keepers.MissesInRange := by
  obtain ⟨info, release, paid, -, -, -, hpaid, -, rfl⟩ := releaseStake_eq_ok.mp h
  rw [Chain.publish_reg, Chain.payOut_frame hpaid]
  exact hmisses.removeKeeper keeper

theorem keeperCall_misses {call : KeeperCall} (h : keeperCall host ctx c call = .ok c')
    (hmisses : c.reg.keepers.MissesInRange) : c'.reg.keepers.MissesInRange := by
  cases call with
  | stake keeper amount =>
      obtain ⟨total, h⟩ := Result.chain_eq_ok.mp h
      obtain ⟨-, -, info, -, -, rfl, -, rfl⟩ := stake_eq_ok h
      exact hmisses.congr rfl
  | beginUnbonding keeper =>
      obtain ⟨release, h⟩ := Result.chain_eq_ok.mp h
      obtain ⟨-, info, -, -, rfl, rfl⟩ := beginUnbonding_eq_ok.mp h
      exact hmisses.congr rfl
  | withdrawStake keeper =>
      obtain ⟨amount, h⟩ := Result.chain_eq_ok.mp h
      exact releaseStake_misses (withdrawStake_eq_ok.mp h).2 hmisses
  | withdrawStakes keepers =>
      obtain ⟨amounts, h⟩ := Result.chain_eq_ok.mp h
      refine releaseStakes_history (I := fun _ c => c.reg.keepers.MissesInRange) ?_ [] hmisses
        (withdrawStakes_eq_ok.mp h).2
      intro past middle after keeper amount hmiddle hrelease
      exact releaseStake_misses hrelease hmiddle

/-- The miss averages during a call: those stored, and the one of the keeper that calls. -/
def Batch.MissesInRange (b : Batch World) : Prop :=
  b.chain.reg.keepers.MissesInRange ∧ b.record.recent.misses ≤ 8 * maxBpsScale

theorem Ran.misses {b b' : Batch World} {jobId : JobId} {r : Receipt World}
    (h : Ran host executor keeper jobId b b' r) (hmisses : b.MissesInRange) : b'.MissesInRange := by
  constructor
  · rw [h.reg, Receipt.regAfter]
    cases r.charged b.chain.reg jobId b.chain.now with
    | none => exact hmisses.1
    | some missed => exact hmisses.1.noteMiss missed
  · rw [h.record]
    exact smooth_le_of_le hmisses.2 (Nat.zero_le _)

theorem runCall_misses {call : RunCall} (hsound : c.Sound host)
    (h : runCall host ctx c call = .ok c')
    (hmisses : c.reg.keepers.MissesInRange) : c'.reg.keepers.MissesInRange := by
  obtain ⟨executor, info, ran, b, -, hruns, hfinish, -⟩ := runCall_eq_ok h
  have hunder := runJobs_underway hsound.config hsound.jobs hruns
  have hbatch : b.MissesInRange := by
    refine runJobs_invariant (fun b jobId spec hb => hb) ?_ ⟨hmisses, hmisses call.keeper⟩ hruns
    intro b b' jobId r hb hran
    exact hran.misses hb
  rw [finish_eq_ok hunder.keeperFees hunder.protocolFees hfinish]
  exact hbatch.1.save call.keeper hbatch.2

theorem step_misses {action : Action World} (hsound : c.Sound host)
    (hmisses : c.reg.keepers.MissesInRange) : (step host c action).reg.keepers.MissesInRange := by
  refine step_keepers hmisses action ?_ ?_
  · intro ctx call c' hcall
    exact runCall_misses hsound hcall hmisses
  · intro ctx call c' hcall
    exact keeperCall_misses hcall hmisses

theorem Reachable.misses (hreach : Reachable host c) : c.reg.keepers.MissesInRange := by
  refine hreach.invariant (I := fun c => c.reg.keepers.MissesInRange) ?_ ?_
  · intro c hdeployed who
    obtain ⟨config, hreg, -⟩ := hdeployed.fresh
    rw [hreg]
    exact Nat.zero_le _
  · intro c action hreach hadm hmisses
    exact step_misses hreach.sound hmisses

end Steps

end SoroCron
