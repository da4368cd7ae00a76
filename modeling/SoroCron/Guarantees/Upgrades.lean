import SoroCron.Registry.Deployment
import SoroCron.Registry.Timelock

/-! # Upgrades leave time to leave

A pending upgrade is only ever pushed later, and a keeper that reacts to an announcement by
unbonding is out before that upgrade can be applied, whatever the admin changes meanwhile.
-/

namespace SoroCron

open Outcome Bounded

variable {World : Type} {host : Host World} {ctx : Ctx} {c c' : Chain World} {keeper : Address}
  {release : Timestamp}

theorem applyUpgrade_ready (h : applyUpgrade host ctx c = .ok c') :
    ∃ pending, c.reg.pendingUpgrade = some pending ∧ pending.availableAt ≤ c.now := by
  have hcall : adminCall host ctx c .applyUpgrade = .ok c' := h
  exact (adminCall_eq_ok hcall).2.1

/-! ## Only pushed later -/

/-- From an announcement on, as long as that proposal stays pending: its time never moves
back, it covers the delay that any setting since then asked for, an upgrade is applied only
once it is reached, and it is never before the release of a keeper that starts unbonding in
the proposal's epoch. -/
theorem upgrade_only_pushed_back {wasmHash : Digest} {announced : Timestamp}
    {earlier later : List (Action World)} (hreach : Reachable host c)
    (hpropose : proposeUpgrade host ctx c wasmHash = .ok (announced, c'))
    (halong : (machine host).Along
      (fun c action => Admissible host c action ∧ KeepsProposal host c action) c'
        (earlier ++ later)) :
    let middle := (machine host).run c' earlier
    let last := (machine host).run c' (earlier ++ later)
    ∃ pending pending', middle.reg.pendingUpgrade = some pending ∧
      last.reg.pendingUpgrade = some pending' ∧
      (pending.wasmHash = wasmHash ∧ pending'.wasmHash = wasmHash) ∧
      (pending.proposedAt = c.now ∧ pending'.proposedAt = c.now) ∧
      (announced ≤ pending.availableAt ∧ pending.availableAt ≤ pending'.availableAt) ∧
      min (c.now + max middle.reg.upgradeDelay
        (middle.reg.config.unbondingPeriod + middle.reg.config.unbondingEpoch)) u64Max ≤
          pending'.availableAt ∧
      (∀ ctx after, applyUpgrade host ctx last = .ok after → pending'.availableAt ≤ last.now) ∧
      ∀ ctx keeper release after, beginUnbonding host ctx middle keeper = .ok (release, after) →
        SameEpoch middle.reg.config.unbondingEpoch middle.now c.now →
          release ≤ pending'.availableAt := by
  intro middle last
  have hcall : Call.perform host ctx c (.admin (.proposeUpgrade wasmHash)) = .ok c' :=
    Result.chain_eq_ok.mpr ⟨announced, hpropose⟩
  have hstart : Reachable host c' := by
    rw [← step_call_ok hcall]
    exact hreach.step trivial
  obtain ⟨halong₁, halong₂⟩ := Machine.along_append.mp halong
  have hmiddle : Reachable host middle :=
    hstart.run (Machine.along_mono (fun _ _ hguard => hguard.1) halong₁)
  simp only [proposeUpgrade, bind_eq_ok, requireAuth_eq_ok, exists_unit, pure_eq_ok,
    Prod.mk.injEq] at hpropose
  obtain ⟨-, rfl, rfl⟩ := hpropose
  -- The proposal is followed to the moment in the middle, and from there to the end.
  obtain ⟨pending, hpending, hsame⟩ := samePushed_next (run_keepsProposal hstart.sound halong₁) rfl
  obtain ⟨pending', hpending', hlater⟩ :=
    samePushed_next (run_keepsProposal hmiddle.sound halong₂) hpending
  rw [← Machine.run_append] at hpending'
  have hwaits := (hmiddle.timelocked pending hpending).2
  have hproposed : pending.proposedAt = c.now := hsame.proposedAt
  rw [hproposed] at hwaits
  refine ⟨pending, pending', hpending, hpending',
    ⟨hsame.wasmHash, hlater.wasmHash.trans hsame.wasmHash⟩,
    ⟨hproposed, hlater.proposedAt.trans hproposed⟩, ⟨hsame.availableAt, hlater.availableAt⟩,
      ?_, ?_, ?_⟩
  · exact (exact_le_delay middle.reg c.now).trans (hwaits.trans hlater.availableAt)
  · intro ctx after happly
    obtain ⟨ready, hready, hle⟩ := applyUpgrade_ready happly
    cases hpending'.symm.trans hready
    exact hle
  · intro ctx leaver release after hunbond hepoch
    obtain ⟨-, info, -, -, rfl, -⟩ := beginUnbonding_eq_ok.mp hunbond
    have hdelay : minUpgradeDelay middle.reg.config ≤ upgradeDelayFor middle.reg := le_max_right _ _
    calc unbondingRelease middle.now middle.reg.config.unbondingPeriod
          middle.reg.config.unbondingEpoch
        ≤ satAdd64 c.now (minUpgradeDelay middle.reg.config) := unbondingRelease_le_delay hepoch
      _ ≤ satAdd64 c.now (upgradeDelayFor middle.reg) := satAdd_mono le_rfl hdelay
      _ ≤ pending.availableAt := hwaits
      _ ≤ pending'.availableAt := hlater.availableAt

def stakedChain : Chain Unit :=
  step plainHost (deployment ⟨3⟩ 1000 100 10 1000) (.call ⟨[⟨4⟩]⟩ (.keeper (.stake ⟨4⟩ 100)))

theorem stakedChain_reachable : Reachable plainHost stakedChain :=
  (deployment_deployed ⟨3⟩ 10 1000 (by decide) (by decide)).reachable.step trivial

/-- An upgrade is pending until `1010`. -/
def proposedChain : Chain Unit :=
  step plainHost stakedChain (.call ⟨[⟨3⟩]⟩ (.admin (.proposeUpgrade ⟨77⟩)))

theorem proposedChain_announced :
    proposeUpgrade plainHost ⟨[⟨3⟩]⟩ stakedChain ⟨77⟩ = .ok (1010, proposedChain) := rfl

def lengthenEpoch : Action Unit := .call ⟨[⟨3⟩]⟩ (.admin (.setUnbondingEpoch 100))

def shortenEpoch : Action Unit := .call ⟨[⟨3⟩]⟩ (.admin (.setUnbondingEpoch 0))

theorem lengthened_release : ∃ after, beginUnbonding plainHost ⟨[⟨4⟩]⟩
    ((machine plainHost).run proposedChain [lengthenEpoch]) ⟨4⟩ = .ok (1110, after) := ⟨_, rfl⟩

/-- An epoch of 100 seconds is set and unset while an upgrade is pending. -/
theorem upgrade_only_pushed_back_lengthened :
    ∃ pending', ((machine plainHost).run proposedChain
        [lengthenEpoch, shortenEpoch, .advance 1100]).reg.pendingUpgrade = some pending' ∧
      1110 ≤ pending'.availableAt := by
  obtain ⟨after, hunbond⟩ := lengthened_release
  have halong : (machine plainHost).Along
      (fun c action => Admissible plainHost c action ∧ KeepsProposal plainHost c action)
        proposedChain
      ([lengthenEpoch] ++ [shortenEpoch, .advance 1100]) := by
    simp [lengthenEpoch, shortenEpoch, Machine.Along, Admissible, KeepsProposal, Call.WellTyped,
      AdminCall.endsProposal, u64Max]
  obtain ⟨pending, pending', -, hlast, -, -, -, -, -, hrelease⟩ :=
    upgrade_only_pushed_back stakedChain_reachable proposedChain_announced halong
  exact ⟨pending', hlast, hrelease _ _ _ _ hunbond (by decide)⟩

/-! ## Out before any upgrade -/

/-- A keeper that starts unbonding in the epoch of a pending announcement is out before that
upgrade is applied, whatever happens in between (`first` empty). It is also out before any
later upgrade is applied, if at some moment since that one was announced the delay was at
least the period and epoch under which the keeper started to unbond. -/
theorem upgrade_waits_for_leavers {signed : Ctx} {pending : PendingUpgrade} {last : Chain World}
    {first second : List (Action World)} (hreach : Reachable host c)
    (hpending : c.reg.pendingUpgrade = some pending)
    (hunbond : beginUnbonding host ctx c keeper = .ok (release, c'))
    (hepoch : SameEpoch c.reg.config.unbondingEpoch c.now pending.proposedAt)
    (hfirst : (machine host).Along (Admissible host) c' first)
    (hsecond : (machine host).Along
      (fun c action => Admissible host c action ∧ KeepsProposal host c action)
      ((machine host).run c' first) second)
    (hcovered : first = [] ∨
      minUpgradeDelay c.reg.config ≤ upgradeDelayFor ((machine host).run c' first).reg)
    (happly : applyUpgrade host signed ((machine host).run c' (first ++ second)) = .ok last) :
    release ≤ ((machine host).run c' (first ++ second)).now := by
  have hcall : Call.perform host ctx c (.keeper (.beginUnbonding keeper)) = .ok c' :=
    Result.chain_eq_ok.mpr ⟨release, hunbond⟩
  have hstart : Reachable host c' := by
    rw [← step_call_ok hcall]
    exact hreach.step trivial
  have hmiddle := hstart.run hfirst
  obtain ⟨-, info, -, -, rfl, hc⟩ := beginUnbonding_eq_ok.mp hunbond
  have hsame : c'.reg.pendingUpgrade = some pending := by
    rw [hc]
    exact hpending
  have hnow : c'.now = c.now := by rw [hc]; rfl
  -- With `first` empty the settings are those the keeper left under.
  have hdelay : minUpgradeDelay c.reg.config ≤
      upgradeDelayFor ((machine host).run c' first).reg := by
    rcases hcovered with rfl | hcovered
    · rw [Machine.run_nil, hc]
      exact le_max_right _ _
    · exact hcovered
  rw [Machine.run_append] at happly ⊢
  obtain ⟨ready, hready, hle⟩ := applyUpgrade_ready happly
  obtain ⟨waiting, hwaiting, hpushed⟩ :=
    samePushed_previous (run_keepsProposal hmiddle.sound hsecond) hready
  -- Another proposal can only have been made later.
  have hlater : pending.proposedAt ≤ waiting.proposedAt := by
    refine run_proposedAt hstart.sound ?_ ?_ hfirst waiting hwaiting
    · rw [hnow]
      exact (hreach.timelocked pending hpending).1
    · rw [hsame]
      intro pending hmem
      cases hmem
      exact le_rfl
  calc unbondingRelease c.now c.reg.config.unbondingPeriod c.reg.config.unbondingEpoch
      ≤ satAdd64 pending.proposedAt (minUpgradeDelay c.reg.config) :=
        unbondingRelease_le_delay hepoch
    _ ≤ satAdd64 waiting.proposedAt (upgradeDelayFor ((machine host).run c' first).reg) :=
      satAdd_mono hlater hdelay
    _ ≤ waiting.availableAt := (hmiddle.timelocked waiting hwaiting).2
    _ ≤ ready.availableAt := hpushed.availableAt
    _ ≤ _ := hle

/-- An upgrade is pending under an epoch of 100 seconds, and a keeper can still leave. -/
def announcedChain : Chain Unit :=
  (machine plainHost).run (deployment ⟨3⟩ 1000 100 10 1000)
    [.call ⟨[⟨4⟩]⟩ (.keeper (.stake ⟨4⟩ 100)), lengthenEpoch,
      .call ⟨[⟨3⟩]⟩ (.admin (.proposeUpgrade ⟨77⟩))]

theorem announcedChain_reachable : Reachable plainHost announcedChain := by
  refine (deployment_deployed ⟨3⟩ 10 1000 (by decide) (by decide)).reachable.run ?_
  simp [lengthenEpoch, Machine.Along, Admissible, Call.WellTyped]

/-- The chain once `⟨4⟩` started to unbond; its stake is released at `1110`. -/
def leavingChain : Chain Unit :=
  step plainHost announcedChain (.call ⟨[⟨4⟩]⟩ (.keeper (.beginUnbonding ⟨4⟩)))

theorem leavingChain_release :
    beginUnbonding plainHost ⟨[⟨4⟩]⟩ announcedChain ⟨4⟩ = .ok (1110, leavingChain) := rfl

/-- Half of the announcement's epoch has passed when the keeper leaves. -/
def hesitantChain : Chain Unit :=
  (machine plainHost).run announcedChain [.advance 1050]

theorem hesitantChain_reachable : Reachable plainHost hesitantChain :=
  announcedChain_reachable.run (by simp [Machine.Along, Admissible, u64Max])

def leavingLate : Chain Unit :=
  step plainHost hesitantChain (.call ⟨[⟨4⟩]⟩ (.keeper (.beginUnbonding ⟨4⟩)))

theorem leavingLate_release :
    beginUnbonding plainHost ⟨[⟨4⟩]⟩ hesitantChain ⟨4⟩ = .ok (1110, leavingLate) := rfl

/-- Another upgrade takes the place of the one announced, before the epoch is unset. -/
def replaceUpgrade : List (Action Unit) :=
  [.advance 1060, .call ⟨[⟨3⟩]⟩ (.admin (.proposeUpgrade ⟨78⟩))]

/-- The epoch is unset, and the upgrade still waits until `1110`; one that takes its place
while the epoch is set waits for the keeper as well. -/
theorem upgrade_waits_for_leavers_announced :
    (∃ last, applyUpgrade plainHost ⟨[⟨3⟩]⟩ ((machine plainHost).run leavingChain
        [shortenEpoch, .advance 1110]) = .ok last ∧
      1110 ≤ ((machine plainHost).run leavingChain [shortenEpoch, .advance 1110]).now) ∧
    ∃ last, applyUpgrade plainHost ⟨[⟨3⟩]⟩ ((machine plainHost).run leavingLate
        (replaceUpgrade ++ [shortenEpoch, .advance 1170])) = .ok last ∧
      1110 ≤ ((machine plainHost).run leavingLate
        (replaceUpgrade ++ [shortenEpoch, .advance 1170])).now := by
  constructor
  · have hfirst : (machine plainHost).Along (Admissible plainHost) leavingChain [] := trivial
    have hsecond : (machine plainHost).Along
        (fun c action => Admissible plainHost c action ∧ KeepsProposal plainHost c action)
        ((machine plainHost).run leavingChain []) [shortenEpoch, .advance 1110] := by
      simp [shortenEpoch, Machine.Along, Admissible, KeepsProposal, Call.WellTyped,
        AdminCall.endsProposal, u64Max]
    have happly : ∃ last, applyUpgrade plainHost ⟨[⟨3⟩]⟩ ((machine plainHost).run leavingChain
        ([] ++ [shortenEpoch, .advance 1110])) = .ok last := ⟨_, rfl⟩
    obtain ⟨last, happly⟩ := happly
    exact ⟨last, happly, upgrade_waits_for_leavers announcedChain_reachable rfl
      leavingChain_release (by decide) hfirst hsecond (.inl rfl) happly⟩
  · have hfirst : (machine plainHost).Along (Admissible plainHost) leavingLate replaceUpgrade := by
      simp [replaceUpgrade, Machine.Along, Admissible, Call.WellTyped, u64Max]
    have hsecond : (machine plainHost).Along
        (fun c action => Admissible plainHost c action ∧ KeepsProposal plainHost c action)
        ((machine plainHost).run leavingLate replaceUpgrade) [shortenEpoch, .advance 1170] := by
      simp [shortenEpoch, Machine.Along, Admissible, KeepsProposal, Call.WellTyped,
        AdminCall.endsProposal, u64Max]
    have happly : ∃ last, applyUpgrade plainHost ⟨[⟨3⟩]⟩ ((machine plainHost).run leavingLate
        (replaceUpgrade ++ [shortenEpoch, .advance 1170])) = .ok last := ⟨_, rfl⟩
    obtain ⟨last, happly⟩ := happly
    exact ⟨last, happly, upgrade_waits_for_leavers hesitantChain_reachable rfl
      leavingLate_release (by decide) hfirst hsecond (.inr (by decide)) happly⟩

/-- The epoch is unset and the upgrade proposed again: the new proposal can be applied at
`1010`, a hundred seconds before the keeper is out. -/
theorem later_upgrade_before_release :
    Reachable plainHost announcedChain ∧
      (∃ pending, announcedChain.reg.pendingUpgrade = some pending ∧
        SameEpoch announcedChain.reg.config.unbondingEpoch announcedChain.now pending.proposedAt) ∧
      beginUnbonding plainHost ⟨[⟨4⟩]⟩ announcedChain ⟨4⟩ = .ok (1110, leavingChain) ∧
      (machine plainHost).Along (Admissible plainHost) leavingChain
        [shortenEpoch, .call ⟨[⟨3⟩]⟩ (.admin (.proposeUpgrade ⟨77⟩)), .advance 1010] ∧
      let last := (machine plainHost).run leavingChain
        [shortenEpoch, .call ⟨[⟨3⟩]⟩ (.admin (.proposeUpgrade ⟨77⟩)), .advance 1010]
      (∃ after, applyUpgrade plainHost ⟨[⟨3⟩]⟩ last = .ok after) ∧ last.now < 1110 := by
  refine ⟨announcedChain_reachable, ⟨_, rfl, by decide⟩, leavingChain_release, ?_, ⟨_, rfl⟩,
    by decide⟩
  simp [shortenEpoch, Machine.Along, Admissible, Call.WellTyped, u64Max]

end SoroCron
