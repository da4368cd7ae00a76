import SoroCron.Foundation.Machine
import SoroCron.Foundation.Store
import SoroCron.Registry.Types

/-! # Alerts about upgrades

Every tick the keeper reads which upgrade is pending. The watch remembers the announcements it
has reported, by hash and time; the alerter suppresses an alert whose key fired within the
cooldown, and the key of an upgrade alert is the hash alone.
-/

namespace SoroCron.KeeperBot

/-! ## The alerter -/

inductive AlertKind where
  | lowBalance
  | lowStake
  | keeperIneligible
  | rpcDown
  | runsFailing
  | upgradeAnnounced
  | jobLowBalance
  | jobPaused
  | jobEnding
  deriving DecidableEq

inductive Severity where
  | warning
  | critical
  deriving DecidableEq

structure Alert where
  kind : AlertKind
  severity : Severity
  /-- The announcement, of an upgrade alert. -/
  upgrade : Option PendingUpgrade := none

/-- What an alert fires under: its kind, or its kind with an account or a hash. -/
inductive AlertKey where
  | kind (kind : AlertKind)
  | account (kind : AlertKind) (address : Address)
  | upgrade (wasmHash : Digest)
  deriving DecidableEq

/-- Times and the cooldown are in milliseconds. -/
structure Alerter where
  url : String
  cooldownMs : ℤ := 3600000
  lastSent : Store AlertKey ℤ := ∅
  sent : ℕ := 0

namespace Alerter

def enabled (alerter : Alerter) : Bool := alerter.url ≠ ""

/-- Posts an alert unless its key fired within the cooldown, and says whether it was posted. The
key has fired even if the webhook does not accept the post. -/
def notify (alerter : Alerter) (key : AlertKey) (now : ℤ) (accepted : Bool) : Alerter × Bool :=
  if alerter.enabled = false then
    (alerter, false)
  else if ∃ last ∈ alerter.lastSent.get key, now - last < alerter.cooldownMs then
    (alerter, false)
  else if accepted = true then
    ({ alerter with lastSent := alerter.lastSent.set key now, sent := alerter.sent + 1 }, true)
  else
    ({ alerter with lastSent := alerter.lastSent.set key now }, false)

/-- Lets an alert fire again at once when its problem is resolved. -/
def clear (alerter : Alerter) (key : AlertKey) : Alerter :=
  { alerter with lastSent := alerter.lastSent.remove key }

/-- Alerts are on, and the key did not fire within the cooldown. -/
def Fires (alerter : Alerter) (key : AlertKey) (now : ℤ) : Prop :=
  alerter.enabled = true ∧ ∀ last ∈ alerter.lastSent.get key, alerter.cooldownMs ≤ now - last

instance (alerter : Alerter) (key : AlertKey) (now : ℤ) : Decidable (alerter.Fires key now) :=
  inferInstanceAs (Decidable (_ ∧ _))

end Alerter

theorem notify_eq (alerter : Alerter) (key : AlertKey) (now : ℤ) (accepted : Bool) :
    alerter.notify key now accepted =
      if alerter.Fires key now then
        ({ alerter with
            lastSent := alerter.lastSent.set key now
            sent := if accepted = true then alerter.sent + 1 else alerter.sent }, accepted)
      else (alerter, false) := by
  unfold Alerter.notify
  split
  next hoff => exact (if_neg fun hfires => absurd hfires.1 (by simp [hoff])).symm
  next hon =>
    split
    next hrecent =>
      obtain ⟨last, hlast, hlt⟩ := hrecent
      exact (if_neg fun hfires => (hfires.2 last hlast).not_gt hlt).symm
    next hrest =>
      have hfires : alerter.Fires key now := by
        refine ⟨eq_true_of_ne_false hon, ?_⟩
        intro last hlast
        by_contra hlt
        exact hrest ⟨last, hlast, not_le.mp hlt⟩
      rw [if_pos hfires]
      cases accepted with
      | true => rfl
      | false => rfl

/-! ## The watch -/

/-- An announcement, by hash and time proposed. -/
abbrev Announcement := Digest × Timestamp

def announcementOf (pending : PendingUpgrade) : Announcement :=
  (pending.wasmHash, pending.proposedAt)

structure UpgradeWatch where
  seen : Finset Announcement := ∅
  current : Option PendingUpgrade := none

namespace UpgradeWatch

/-- Records what `pendingUpgrade` returned and gives the alert for a new announcement. -/
def update (watch : UpgradeWatch) (pending : Option PendingUpgrade) : UpgradeWatch × Option Alert :=
  let watch := { watch with current := pending }
  match pending with
  | none => (watch, none)
  | some upgrade =>
      if announcementOf upgrade ∈ watch.seen then
        (watch, none)
      else
        ({ watch with seen := insert (announcementOf upgrade) watch.seen },
          some { kind := .upgradeAnnounced, severity := .warning, upgrade := some upgrade })

/-- When the announced upgrade can be applied, or 0. -/
def availableAt (watch : UpgradeWatch) : Timestamp :=
  (watch.current.map PendingUpgrade.availableAt).getD 0

/-- The announcement to alert on now, if it is new. -/
def announced (watch : UpgradeWatch) (pending : Option PendingUpgrade) : Option PendingUpgrade :=
  (watch.update pending).2.bind Alert.upgrade

end UpgradeWatch

/-! ## The keeper's loop

Here the webhook accepts every post.
-/

structure Watchman where
  watch : UpgradeWatch := {}
  alerter : Alerter

/-- The upgrade part of a tick, or what the rest of the loop does with the alerter. -/
inductive AlertAction where
  | readUpgrade (pending : Option PendingUpgrade) (now : ℤ)
  | notify (kind : AlertKind) (address : Option Address) (now : ℤ)
  | clear (kind : AlertKind) (address : Option Address)

/-- The key of an alert about anything but upgrades. -/
def otherKey (kind : AlertKind) (address : Option Address) : AlertKey :=
  match address with
  | some address => .account kind address
  | none => .kind kind

namespace Watchman

def step (man : Watchman) : AlertAction → Watchman
  | .readUpgrade pending now =>
      { watch := (man.watch.update pending).1
        alerter := match man.watch.announced pending with
          | some upgrade => (man.alerter.notify (.upgrade upgrade.wasmHash) now true).1
          | none => man.alerter }
  | .notify kind address now =>
      { man with alerter := (man.alerter.notify (otherKey kind address) now true).1 }
  | .clear kind address => { man with alerter := man.alerter.clear (otherKey kind address) }

/-- The announcements that a step posts an alert about, with the time. -/
def posts (man : Watchman) : AlertAction → List (PendingUpgrade × ℤ)
  | .readUpgrade pending now =>
      match man.watch.announced pending with
      | some upgrade =>
          if (man.alerter.notify (.upgrade upgrade.wasmHash) now true).2 then
            [(upgrade, now)] else []
      | none => []
  | _ => []

end Watchman

/-- An announcement as it was read, and when. -/
abbrev Reading := PendingUpgrade × ℤ

def readings (actions : List AlertAction) : List Reading :=
  actions.filterMap fun
    | .readUpgrade (some upgrade) now => some (upgrade, now)
    | _ => none

/-- A reading of the same announcement; its time to take effect may have been pushed back. -/
def SameAnnouncement (first second : Reading) : Prop :=
  announcementOf first.1 = announcementOf second.1

instance (first second : Reading) : Decidable (SameAnnouncement first second) :=
  inferInstanceAs (Decidable (announcementOf first.1 = announcementOf second.1))

/-- The first reading of each announcement, in order. -/
def firstReadings (read : List Reading) : List Reading :=
  read.foldl (fun firsts reading =>
    if ∃ first ∈ firsts, SameAnnouncement first reading then firsts else firsts ++ [reading]) []

/-- Announcements of one hash are first read at least a cooldown apart. -/
def Spaced (cooldownMs : ℤ) (firsts : List Reading) : Prop :=
  firsts.Pairwise fun earlier later =>
    earlier.1.wasmHash = later.1.wasmHash → cooldownMs ≤ later.2 - earlier.2

instance (cooldownMs : ℤ) (firsts : List Reading) : Decidable (Spaced cooldownMs firsts) :=
  inferInstanceAs (Decidable (List.Pairwise _ _))

theorem firstReadings_append (read : List Reading) (reading : Reading) :
    firstReadings (read ++ [reading]) =
      if ∃ first ∈ firstReadings read, SameAnnouncement first reading then firstReadings read
      else firstReadings read ++ [reading] := by
  rw [firstReadings, List.foldl_append]
  rfl

theorem firstReadings_sublist (read : List Reading) : (firstReadings read).Sublist read := by
  induction read using List.reverseRecOn with
  | nil => exact List.Sublist.refl _
  | append_singleton read reading ih =>
      rw [firstReadings_append]
      split
      · exact ih.trans (List.sublist_append_left _ _)
      · exact ih.append_right _

/-- What the keeper knows after reading `read` and posting about `posted`. -/
structure Informed (cooldownMs : ℤ) (read posted : List Reading) (man : Watchman) : Prop where
  enabled : man.alerter.enabled = true
  cooldown : man.alerter.cooldownMs = cooldownMs
  seen : ∀ announcement, announcement ∈ man.watch.seen ↔
    ∃ first ∈ firstReadings read, announcementOf first.1 = announcement
  lastSent : ∀ wasmHash, man.alerter.lastSent.get (.upgrade wasmHash) =
    (posted.filter fun reading => reading.1.wasmHash = wasmHash).getLast?.map Prod.snd
  once : posted.Sublist (firstReadings read)
  exact : posted = firstReadings read ↔ Spaced cooldownMs (firstReadings read)

theorem otherKey_ne (kind : AlertKind) (address : Option Address) (wasmHash : Digest) :
    AlertKey.upgrade wasmHash ≠ otherKey kind address := by
  cases address <;> exact nofun

/-- Other alerts leave what is known of upgrades as it is. -/
theorem Informed.notify {cooldownMs : ℤ} {read posted : List Reading} {man : Watchman}
    (h : Informed cooldownMs read posted man) (kind : AlertKind) (address : Option Address)
    (now : ℤ) : Informed cooldownMs read posted
      { man with alerter := (man.alerter.notify (otherKey kind address) now true).1 } := by
  rw [notify_eq]
  split
  · refine ⟨h.enabled, h.cooldown, h.seen, ?_, h.once, h.exact⟩
    intro wasmHash
    exact (Store.get_set_of_ne _ _ (otherKey_ne kind address wasmHash)).trans (h.lastSent wasmHash)
  · exact h

theorem Informed.clear {cooldownMs : ℤ} {read posted : List Reading} {man : Watchman}
    (h : Informed cooldownMs read posted man) (kind : AlertKind) (address : Option Address) :
    Informed cooldownMs read posted { man with
      alerter := man.alerter.clear (otherKey kind address) } := by
  refine ⟨h.enabled, h.cooldown, h.seen, ?_, h.once, h.exact⟩
  intro wasmHash
  exact (Store.get_remove_of_ne _ (otherKey_ne kind address wasmHash)).trans (h.lastSent wasmHash)

/-! ## A new announcement -/

theorem spaced_append {cooldownMs : ℤ} {firsts : List Reading} {reading : Reading} :
    Spaced cooldownMs (firsts ++ [reading]) ↔ Spaced cooldownMs firsts ∧
      ∀ first ∈ firsts, first.1.wasmHash = reading.1.wasmHash →
        cooldownMs ≤ reading.2 - first.2 := by
  simp [Spaced, List.pairwise_append]

/-- Among readings in order of time, the last one decides. -/
theorem last_decides {cooldownMs now : ℤ} {past : List Reading}
    (hordered : past.Pairwise fun earlier later => earlier.2 ≤ later.2) :
    (∀ last ∈ past.getLast?.map Prod.snd, cooldownMs ≤ now - last) ↔
      ∀ reading ∈ past, cooldownMs ≤ now - reading.2 := by
  cases past using List.reverseRecOn with
  | nil => simp
  | append_singleton past last =>
      obtain ⟨-, -, hlast⟩ := List.pairwise_append.mp hordered
      simp only [List.getLast?_concat, Option.map_some, Option.mem_some_iff, forall_eq']
      constructor
      · intro hspaced reading hmem
        rcases List.mem_append.mp hmem with hpast | hend
        · have hle := hlast reading hpast last List.mem_cons_self
          omega
        · cases List.mem_singleton.mp hend
          exact hspaced
      · intro hall
        exact hall last (List.mem_append_right _ List.mem_cons_self)

theorem notify_fst (alerter : Alerter) (key : AlertKey) (now : ℤ) :
    (alerter.notify key now true).1 =
      if (alerter.notify key now true).2 then
        { alerter with lastSent := alerter.lastSent.set key now, sent := alerter.sent + 1 }
      else alerter := by
  rw [notify_eq]
  split
  · rfl
  · rfl

theorem notify_posts {alerter : Alerter} {key : AlertKey} {now : ℤ}
    (henabled : alerter.enabled = true) : (alerter.notify key now true).2 = true ↔
      ∀ last ∈ alerter.lastSent.get key, alerter.cooldownMs ≤ now - last := by
  rw [notify_eq]
  split
  next hfires => exact iff_of_true rfl hfires.2
  next hrecent => exact iff_of_false Bool.false_ne_true fun hall => hrecent ⟨henabled, hall⟩

/-- While nothing was lost, an announcement is posted exactly if all earlier ones of its hash
are a cooldown away. -/
theorem Informed.posts_iff {cooldownMs : ℤ} {read posted : List Reading} {man : Watchman}
    {reading : Reading} (h : Informed cooldownMs read posted man)
    (hordered : read.Pairwise fun earlier later => earlier.2 ≤ later.2)
    (hall : posted = firstReadings read) :
    (man.alerter.notify (.upgrade reading.1.wasmHash) reading.2 true).2 = true ↔
      ∀ first ∈ firstReadings read, first.1.wasmHash = reading.1.wasmHash →
        cooldownMs ≤ reading.2 - first.2 := by
  have hfirsts : (firstReadings read).Pairwise fun earlier later => earlier.2 ≤ later.2 :=
    hordered.sublist (firstReadings_sublist read)
  rw [notify_posts h.enabled, h.lastSent, hall, h.cooldown,
    last_decides (hfirsts.sublist List.filter_sublist)]
  constructor
  · intro hspaced first hmem hhash
    exact hspaced first (List.mem_filter.mpr ⟨hmem, decide_eq_true hhash⟩)
  · intro hspaced first hmem
    obtain ⟨hmem, hhash⟩ := List.mem_filter.mp hmem
    exact hspaced first hmem (of_decide_eq_true hhash)

/-- The first reading of an announcement, posted or not. -/
theorem Informed.first {cooldownMs : ℤ} {read posted : List Reading} {man : Watchman}
    {reading : Reading} (h : Informed cooldownMs read posted man)
    (hordered : read.Pairwise fun earlier later => earlier.2 ≤ later.2)
    (hnew : ¬∃ first ∈ firstReadings read, SameAnnouncement first reading) :
    Informed cooldownMs (read ++ [reading])
      (posted ++ man.posts (.readUpgrade (some reading.1) reading.2))
      (man.step (.readUpgrade (some reading.1) reading.2)) := by
  have hunseen : announcementOf reading.1 ∉ man.watch.seen := by
    rw [h.seen]
    exact hnew
  have hupdate : man.watch.update (some reading.1) =
      ({ seen := insert (announcementOf reading.1) man.watch.seen, current := some reading.1 },
        some { kind := .upgradeAnnounced, severity := .warning, upgrade := some reading.1 }) := by
    simp only [UpgradeWatch.update, hunseen, if_false]
  have hannounced : man.watch.announced (some reading.1) = some reading.1 := by
    rw [UpgradeWatch.announced, hupdate]
    rfl
  have hfirsts : firstReadings (read ++ [reading]) = firstReadings read ++ [reading] := by
    rw [firstReadings_append, if_neg hnew]
  have hseen : ∀ announcement, announcement ∈ insert (announcementOf reading.1) man.watch.seen ↔
      ∃ first ∈ firstReadings read ++ [reading], announcementOf first.1 = announcement := by
    intro announcement
    rw [Finset.mem_insert, h.seen]
    simp only [List.mem_append, List.mem_singleton, or_and_right, exists_or, exists_eq_left]
    rw [or_comm, eq_comm]
  have hiff : posted = firstReadings read →
      ((man.alerter.notify (.upgrade reading.1.wasmHash) reading.2 true).2 = true ↔
        ∀ first ∈ firstReadings read, first.1.wasmHash = reading.1.wasmHash →
          cooldownMs ≤ reading.2 - first.2) := h.posts_iff hordered
  simp only [Watchman.posts, Watchman.step, hannounced, hupdate]
  cases hpost : (man.alerter.notify (.upgrade reading.1.wasmHash) reading.2 true).2 with
  | true =>
      have hsent : (man.alerter.notify (.upgrade reading.1.wasmHash) reading.2 true).1 =
          { man.alerter with
            lastSent := man.alerter.lastSent.set (.upgrade reading.1.wasmHash) reading.2
            sent := man.alerter.sent + 1 } := by
        rw [notify_fst, hpost, if_pos rfl]
      rw [hsent, if_pos rfl]
      constructor
      case enabled => exact h.enabled
      case cooldown => exact h.cooldown
      case seen =>
        rw [hfirsts]
        exact hseen
      case lastSent =>
        intro wasmHash
        rw [List.filter_append]
        by_cases hhash : reading.1.wasmHash = wasmHash
        · subst hhash
          simp [Store.get_set_self]
        · have hother : AlertKey.upgrade wasmHash ≠ .upgrade reading.1.wasmHash :=
            fun heq => hhash (AlertKey.upgrade.inj heq).symm
          simp [hhash, Store.get_set_of_ne _ _ hother, h.lastSent]
      case once =>
        rw [hfirsts]
        exact h.once.append_right _
      case exact =>
        rw [hfirsts, spaced_append, List.append_cancel_right_eq]
        constructor
        · intro hall
          exact ⟨h.exact.mp hall, (hiff hall).mp hpost⟩
        · rintro ⟨hspaced, -⟩
          exact h.exact.mpr hspaced
  | false =>
      have hkept : (man.alerter.notify (.upgrade reading.1.wasmHash) reading.2 true).1 =
          man.alerter := by
        rw [notify_fst, hpost, if_neg Bool.false_ne_true]
      rw [hkept, if_neg Bool.false_ne_true, List.append_nil]
      constructor
      case enabled => exact h.enabled
      case cooldown => exact h.cooldown
      case seen =>
        rw [hfirsts]
        exact hseen
      case lastSent => exact h.lastSent
      case once =>
        rw [hfirsts]
        exact h.once.trans (List.sublist_append_left _ _)
      case exact =>
        rw [hfirsts, spaced_append]
        constructor
        · intro hall
          have hlength := h.once.length_le
          rw [hall, List.length_append, List.length_singleton] at hlength
          omega
        · rintro ⟨hspaced, hlast⟩
          have hsent := (hiff (h.exact.mpr hspaced)).mpr hlast
          rw [hpost] at hsent
          cases hsent

/-! ## Over a run -/

end SoroCron.KeeperBot
