import SoroCron.Guarantees.Misses
import SoroCron.Registry.Reputation

/-! # Recent averages

The moving averages of a keeper settle exactly on a repeated sample, and the share of misses
shown for a keeper is never more than everything.
-/

namespace SoroCron

theorem smooth_comesToRest {scaled sample : ℕ} (hscaled : scaled ≤ u64Max)
    (hband : 8 * sample + 7 ≤ u64Max) :
    Settling.ComesToRest (fun n => (fun value => smooth value sample)^[n] scaled)
      (Settling.rest 8 sample scaled) := by
  have hpath : (fun n => (fun value => smooth value sample)^[n] scaled) =
      fun n => (Settling.blend 8 sample)^[n] scaled := by
    funext n
    exact smooth_iterate hscaled hband n
  rw [hpath]
  exact Settling.iterate_comesToRest (by omega) sample scaled

/-- Repeated samples settle on a value whose eighth is the sample; smoothing is monotone and
stays within 64 bits; and no keeper is ever shown with more misses than everything. -/
theorem recent_averages_settle (World : Type) :
    (∀ scaled sample : ℕ, scaled ≤ u64Max → 8 * sample + 7 ≤ u64Max →
      smooth scaled sample = scaled - scaled / 8 + sample ∧
      ∃ settled, settled / 8 = sample ∧
        Settling.ComesToRest (fun n => (fun value => smooth value sample)^[n] scaled) settled) ∧
    (∀ scaled scaled' sample sample' : ℕ, scaled ≤ scaled' → sample ≤ sample' →
      smooth scaled sample ≤ smooth scaled' sample') ∧
    (∀ scaled sample : ℕ, scaled / 8 ≤ scaled ∧ smooth scaled sample ≤ u64Max) ∧
    (∀ (host : Host World) (c : Chain World), Reachable host c → ∀ keeper : Address,
      (c.reg.keepers.getKeeperRecent keeper).misses ≤ 80000 ∧
      ∀ stats, keeperStats c.reg keeper = some stats →
        stats.recentMissBps = (c.reg.keepers.getKeeperRecent keeper).misses / 8 ∧
        stats.recentMissBps ≤ 10000) := by
  refine ⟨?_, ?_, ?_, ?_⟩
  · intro scaled sample hscaled hband
    refine ⟨smooth_eq_blend hscaled hband, Settling.rest 8 sample scaled, ?_, ?_⟩
    · exact Settling.rest_div (by omega) sample scaled
    · exact smooth_comesToRest hscaled hband
  · intro scaled scaled' sample sample' hscaled hsample
    exact smooth_mono hscaled hsample
  · intro scaled sample
    exact ⟨Nat.div_le_self scaled 8, smooth_le_u64Max scaled sample⟩
  · intro host c hreach keeper
    have hmisses : (c.reg.keepers.getKeeperRecent keeper).misses ≤ 80000 := hreach.misses keeper
    refine ⟨hmisses, ?_⟩
    intro stats hstats
    have hshare : (c.reg.keepers.getKeeperRecent keeper).misses / 8 ≤ 10000 := by omega
    have hfits : (c.reg.keepers.getKeeperRecent keeper).misses / 8 ≤ u32Max :=
      hshare.trans (by decide)
    have hshown : stats.recentMissBps = (c.reg.keepers.getKeeperRecent keeper).misses / 8 :=
      (keeperStats_misses hstats).trans (asU32_eq hfits)
    exact ⟨hshown, hshown ▸ hshare⟩

/-- The chain after a run that was reserved for `⟨4⟩` was left to another keeper. -/
def missedChain : Chain Unit := (machine plainHost).run (deployment ⟨3⟩ 1000 100 10 1000)
  ([connectExecutor] ++ reservedRun ++ [.advance 1100, runByOther])

theorem recent_averages_settle_missed :
    (∃ settled, settled / 8 = 40 ∧
      Settling.ComesToRest (fun n => (fun value => smooth value 40)^[n] 0) settled) ∧
    smooth 3 1 ≤ smooth 4 2 ∧
    (keeperStats missedChain.reg ⟨4⟩).map KeeperStats.recentMissBps = some 1250 ∧
    (missedChain.reg.keepers.getKeeperRecent ⟨4⟩).misses ≤ 80000 := by
  have hreach : Reachable plainHost missedChain := by
    refine ⟨_, _, deployment_deployed ⟨3⟩ 10 1000 (by decide) (by decide), ?_, rfl⟩
    simp [reservedRun, connectExecutor, runByOther, Machine.Along, Admissible, Call.WellTyped,
      JobParams.WellTyped, minutely, u64Max, i128Max]
  obtain ⟨hsettles, hmono, -, hmisses⟩ := recent_averages_settle Unit
  refine ⟨?_, ?_, ?_, ?_⟩
  · exact (hsettles 0 40 (by decide) (by decide)).2
  · exact hmono 3 4 1 2 (by decide) (by decide)
  · decide
  · exact (hmisses plainHost missedChain hreach ⟨4⟩).1

end SoroCron
