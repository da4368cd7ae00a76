import SoroCron.KeeperBot.News

/-! # What a follower of the events knows

An entry of the index is known as far as some place in the log: once no event after that place
concerns its job, it says of the job what the registry says. Its balance may have been read
later than that place; then the runs up to that reading must not be charged again.
-/

namespace SoroCron.KeeperBot

variable {id : JobId} {events new rest : List Event} {event : Event} {now after : Standing}

/-! ## The log -/

/-- What the log says of a job is true of it. -/
structure Truthful (id : JobId) (events : List Event) (now : Standing) : Prop where
  parts : ∀ part : Part, Word.Holds (part.word id) part.read events now.job
  balance : ∀ first event later balance, events = first ++ event :: later →
    posting id event = .became balance → Unread id later →
    ∀ job ∈ now.job, job.Agrees (post id later balance)
  cancelled : ∀ refund, .jobCancelled id refund ∈ events → now = .gone

theorem Truthful.nil (id : JobId) (now : Standing) : Truthful id [] now := by
  refine ⟨?_, ?_, ?_⟩
  · intro part job _ value hlast
    cases hlast
  · intro first event later balance hevents
    simp at hevents
  · intro refund hmem
    cases hmem

theorem Truthful.told (h : Truthful id events now) (hnews : News id new now after) :
    Truthful id (events ++ new) after := by
  refine ⟨?_, ?_, ?_⟩
  · intro part
    exact (h.parts part).told (hnews.tells part)
  · intro first event later balance hevents htold hunread job hjob
    rcases List.append_eq_append_iff.mp hevents with ⟨early, -, hnew⟩ | ⟨early, hold, hlate⟩
    · exact hnews.told hnew htold job hjob
    · cases early with
      | nil =>
          have hnew : new = [] ++ event :: later := hlate.symm
          exact hnews.told hnew htold job hjob
      | cons found between =>
          rw [List.cons_append, List.cons.injEq] at hlate
          obtain ⟨rfl, rfl⟩ := hlate
          obtain ⟨hbetween, hunreadNew⟩ := unread_append.mp hunread
          rw [post_append]
          exact hnews.posted hunreadNew
            (h.balance first event between balance hold htold hbetween) job hjob
  · intro refund hmem
    rcases List.mem_append.mp hmem with hold | hnew
    · exact hnews.gone (.inl (h.cancelled refund hold))
    · exact hnews.gone (.inr ⟨refund, hnew⟩)

/-! ## Places in the log -/

section Places

variable {place held : ℕ}

theorem drop_place (hevent : events[place]? = some event) :
    events.drop place = event :: events.drop (place + 1) := by
  obtain ⟨hlt, rfl⟩ := List.getElem?_eq_some_iff.mp hevent
  exact List.drop_eq_getElem_cons hlt

theorem split_place (hevent : events[place]? = some event) :
    events = events.take place ++ event :: events.drop (place + 1) := by
  rw [← drop_place hevent, List.take_append_drop]

theorem place_lt (hevent : events[place]? = some event) : place + 1 ≤ events.length :=
  (List.getElem?_eq_some_iff.mp hevent).1

theorem unread_place (hevent : events[place]? = some event) (hlooks : ¬ Looks id event)
    (hunread : Unread id (events.drop (place + 1))) : Unread id (events.drop place) := by
  rw [drop_place hevent]
  exact List.forall_mem_cons.mpr ⟨hlooks, hunread⟩

theorem uncancelled_place (hevent : events[place]? = some event)
    (hcancelled : ∀ refund, event ≠ .jobCancelled id refund)
    (hlater : ∀ refund, .jobCancelled id refund ∉ events.drop (place + 1)) :
    ∀ refund, .jobCancelled id refund ∉ events.drop place := by
  intro refund hmem
  rw [drop_place hevent] at hmem
  rcases List.mem_cons.mp hmem with hsame | hmem
  · exact hcancelled refund hsame.symm
  · exact hlater refund hmem

/-- Between two places with no posting in between, it does not matter where one starts to post. -/
theorem post_from (hle : held ≤ place)
    (hsilent : ∀ at' event, held ≤ at' → at' < place → events[at']? = some event →
      posting id event = .nothing)
    (balance : ℤ) : post id (events.drop held) balance = post id (events.drop place) balance := by
  induction place, hle using Nat.le_induction with
  | base => rfl
  | succ place hle ih =>
      have hearlier := ih fun at' event hheld hlt => hsilent at' event hheld (Nat.lt_succ_of_lt hlt)
      rw [hearlier]
      cases hevent : events[place]? with
      | none =>
          have hlength := List.getElem?_eq_none_iff.mp hevent
          rw [List.drop_eq_nil_of_le hlength, List.drop_eq_nil_of_le (Nat.le_succ_of_le hlength)]
      | some event =>
          rw [drop_place hevent, post_cons, hsilent place event hle (Nat.lt_succ_self place) hevent]
          rfl

end Places

/-! ## One entry -/

section Hear

variable {fresh kept : Option IndexedJob}

instance (id : JobId) (event : Event) : Decidable (Looks id event) :=
  inferInstanceAs (Decidable (_ ∧ _))

theorem hear_looks (h : Looks id event) : hear fresh id event kept = fresh.or kept := by
  obtain ⟨htracked, hasks⟩ := h
  have hhear : hear fresh id event kept = _ := if_pos htracked
  rw [hhear]
  cases event with
  | jobCreated => rfl
  | jobUpdated => rfl
  | _ => cases hasks

theorem posting_of_looks (h : Looks id event) : posting id event = .nothing := by
  obtain ⟨htracked, hasks⟩ := h
  have hposting : posting id event = _ := if_pos htracked
  rw [hposting]
  cases event with
  | jobCreated => rfl
  | jobUpdated => rfl
  | _ => cases hasks

theorem hear_cancelled (refund : ℤ) : hear fresh id (.jobCancelled id refund) kept = none :=
  if_pos rfl

/-- Every other event edits the entry, and posts to its balance. -/
theorem hear_edits (hlooks : ¬ Looks id event)
    (hcancelled : ∀ refund, event ≠ .jobCancelled id refund) :
    ∃ edit : IndexedJob → IndexedJob, hear fresh id event kept = kept.map edit ∧
      ∀ entry, (edit entry).balance = (posting id event).apply entry.balance := by
  by_cases htracked : tracked event = some id
  · have hhear : hear fresh id event kept = _ := if_pos htracked
    have hposting : posting id event = _ := if_pos htracked
    rw [hhear, hposting]
    cases event with
    | jobCreated => exact absurd ⟨htracked, rfl⟩ hlooks
    | jobUpdated => exact absurd ⟨htracked, rfl⟩ hlooks
    | jobCancelled other refund =>
        cases htracked
        exact absurd rfl (hcancelled refund)
    | _ =>
        cases htracked
        all_goals exact ⟨_, rfl, fun _ => rfl⟩
  · rw [hear_of_untracked htracked, posting_of_untracked htracked]
    exact ⟨fun entry => entry, Option.map_id'.symm ▸ rfl, fun _ => rfl⟩

end Hear

/-! ## Known entries -/

/-- What is known of a job by an entry that heard the log up to `place`, and whose balance
accounts for the first `held` events. -/
structure Known (id : JobId) (events : List Event) (place held : ℕ) (kept : Option IndexedJob)
    (now : Standing) : Prop where
  place_le : place ≤ events.length
  held_le : held ≤ events.length
  parts : ∀ part : Part, Word.Follows (part.word id) part.read (events.drop place) kept now.job
  /-- The balance misses no event that was heard. -/
  accounted : ∀ at' event, held ≤ at' → at' < place → events[at']? = some event →
    posting id event = .nothing
  balance : Unread id (events.drop place) →
    ∀ entry ∈ kept, ∀ job ∈ now.job, job.Agrees (post id (events.drop held) entry.balance)
  missing : Unread id (events.drop place) → now.job.isSome = true → kept.isSome = true
  stale : (∀ refund, .jobCancelled id refund ∉ events.drop place) → kept.isSome = true →
    now.job.isSome = true

/-- What the balance of an entry accounts for once its job's entry heard an event at `place`. -/
def heldNext (id : JobId) (length : ℕ) (now : Standing) (event : Event) (place held : ℕ) : ℕ :=
  if Looks id event then
    if now.job.isSome = true then length else held
  else
    match posting id event with
    | .nothing => held
    | _ => place + 1

namespace Known

variable {place held : ℕ} {kept : Option IndexedJob}

/-- A job that was just read is known. -/
theorem read (id : JobId) (events : List Event) (now : Standing) :
    Known id events events.length events.length now.job now where
  place_le := le_rfl
  held_le := le_rfl
  parts part := Word.Follows.looked _ _
  accounted at' event hheld hlt := absurd hlt (Nat.not_lt.mpr hheld)
  balance _ entry hentry job hjob := by
    cases hentry.symm.trans hjob
    rw [List.drop_length]
    exact .inl rfl
  missing _ hlive := hlive
  stale _ hlive := hlive

/-- What is known stays known when the registry tells what it does. -/
theorem told (h : Known id events place held kept now) (hnews : News id new now after) :
    Known id (events ++ new) place held kept after := by
  have hdrop : (events ++ new).drop place = events.drop place ++ new :=
    List.drop_append_of_le_length h.place_le
  have hheld : (events ++ new).drop held = events.drop held ++ new :=
    List.drop_append_of_le_length h.held_le
  have hlength : events.length ≤ (events ++ new).length := by simp
  refine ⟨h.place_le.trans hlength, h.held_le.trans hlength, ?_, ?_, ?_, ?_, ?_⟩
  · intro part
    rw [hdrop]
    exact (h.parts part).told (hnews.tells part)
  · intro at' event hle hlt hevent
    rw [List.getElem?_append_left (hlt.trans_le h.place_le)] at hevent
    exact h.accounted at' event hle hlt hevent
  · intro hunread entry hentry
    rw [hdrop, unread_append] at hunread
    rw [hheld, post_append]
    exact hnews.posted hunread.2 (h.balance hunread.1 entry hentry)
  · intro hunread hlive
    rw [hdrop, unread_append] at hunread
    exact h.missing hunread.1 (hnews.live_before hunread.2 hlive)
  · intro hcancelled hkept
    rw [hdrop] at hcancelled
    simp only [List.mem_append, not_or] at hcancelled
    exact hnews.live_after (fun refund => (hcancelled refund).2)
      (h.stale (fun refund => (hcancelled refund).1) hkept)

/-- A follower that goes back in the log knows no less. -/
theorem behind (h : Known id events place held kept now) {earlier : ℕ} (hle : earlier ≤ place) :
    Known id events earlier held kept now := by
  obtain ⟨more, hmore⟩ : ∃ more, events.drop earlier = more ++ events.drop place := by
    refine ⟨(events.drop earlier).take (place - earlier), ?_⟩
    have hsame : events.drop place = (events.drop earlier).drop (place - earlier) := by
      rw [List.drop_drop, Nat.add_sub_cancel' hle]
    rw [hsame, List.take_append_drop]
  refine ⟨hle.trans h.place_le, h.held_le, ?_, ?_, ?_, ?_, ?_⟩
  · intro part
    rw [hmore]
    exact (h.parts part).behind more
  · intro at' event hheld hlt hevent
    exact h.accounted at' event hheld (hlt.trans_le hle) hevent
  · intro hunread
    rw [hmore, unread_append] at hunread
    exact h.balance hunread.2
  · intro hunread
    rw [hmore, unread_append] at hunread
    exact h.missing hunread.2
  · intro hcancelled
    rw [hmore] at hcancelled
    simp only [List.mem_append, not_or] at hcancelled
    exact h.stale fun refund => (hcancelled refund).2

section Heard

variable (h : Known id events place held kept now) (hevent : events[place]? = some event)

include h hevent

/-- All but the balance. -/
theorem parts_heard (htrue : Truthful id events now) (part : Part) :
    Word.Follows (part.word id) part.read (events.drop (place + 1))
      (hear now.job id event kept) now.job := by
  have hholds := htrue.parts part
  have hfollows := h.parts part
  rw [split_place hevent] at hholds
  rw [drop_place hevent] at hfollows
  exact hfollows.obeyed hholds (part.obeys id event now.job kept)

theorem accounted_next (hnothing : posting id event = .nothing) :
    ∀ at' found, held ≤ at' → at' < place + 1 →
    events[at']? = some found → posting id found = .nothing := by
  intro at' found hheld hlt hfound
  rcases Nat.lt_succ_iff_lt_or_eq.mp hlt with hearlier | rfl
  · exact h.accounted at' found hheld hearlier hfound
  · cases hevent.symm.trans hfound
    exact hnothing

/-- The job is read again, if it is still there. -/
theorem heard_looks (htrue : Truthful id events now) (hlooks : Looks id event) :
    Known id events (place + 1) (if now.job.isSome = true then events.length else held)
      (hear now.job id event kept) now := by
  have hparts := h.parts_heard hevent htrue
  have hlength : place + 1 ≤ events.length := place_lt hevent
  have hcancelled : ∀ refund, event ≠ .jobCancelled id refund := by
    rintro refund rfl
    cases hlooks.2
  rw [hear_looks hlooks] at hparts ⊢
  cases hjob : now.job with
  | some job =>
      rw [hjob] at hparts
      refine ⟨hlength, le_rfl, ?_, ?_, ?_, fun _ _ => rfl, fun _ _ => by rw [hjob]; rfl⟩
      · intro part
        rw [hjob]
        exact hparts part
      · intro at' event hheld hlt hfound
        rw [Option.isSome_some, if_pos rfl] at hheld
        exact absurd (hheld.trans_lt hlt) (Nat.not_lt.mpr hlength)
      · rintro - entry hentry found hfound
        cases hentry
        cases hjob.symm.trans hfound
        rw [Option.isSome_some, if_pos rfl, List.drop_length]
        exact .inl rfl
  | none =>
      rw [hjob] at hparts
      refine ⟨hlength, h.held_le, ?_, h.accounted_next hevent (posting_of_looks hlooks), ?_, ?_, ?_⟩
      · intro part
        rw [hjob]
        exact hparts part
      · rintro - entry - job hlive
        cases hjob.symm.trans hlive
      · intro _ hlive
        rw [hjob] at hlive
        cases hlive
      · intro hlater hkept
        exact h.stale (uncancelled_place hevent hcancelled hlater) hkept

/-- The entry of a cancelled job is dropped. -/
theorem heard_cancelled (htrue : Truthful id events now) {refund : ℤ}
    (hcancelled : event = .jobCancelled id refund) : Known id events (place + 1) held none now := by
  have hnow : now = .gone := by
    apply htrue.cancelled refund
    rw [← hcancelled]
    exact List.mem_of_getElem? hevent
  subst hnow
  refine ⟨place_lt hevent, h.held_le, ?_, ?_, nofun, nofun, nofun⟩
  · intro part
    nofun
  · apply h.accounted_next hevent
    rw [hcancelled]
    exact if_pos rfl

/-- An entry is edited as the event tells. -/
theorem heard_edits (htrue : Truthful id events now) (hlooks : ¬ Looks id event)
    (hcancelled : ∀ refund, event ≠ .jobCancelled id refund)
    (hcharged : ∀ fee, posting id event = .spent fee → kept.isSome = true → held ≤ place) :
    Known id events (place + 1)
      (match posting id event with
        | .nothing => held
        | _ => place + 1)
      (hear now.job id event kept) now := by
  have hlength : place + 1 ≤ events.length := place_lt hevent
  obtain ⟨edit, hhear, hposted⟩ : ∃ edit :
      IndexedJob → IndexedJob, hear now.job id event kept = kept.map edit ∧
      ∀ entry, (edit entry).balance = (posting id event).apply entry.balance :=
        hear_edits hlooks hcancelled
  have hparts := h.parts_heard hevent htrue
  have hmissing : Unread id (events.drop (place + 1)) → now.job.isSome = true →
      (kept.map edit).isSome = true := by
    intro hunread hlive
    rw [Option.isSome_map]
    exact h.missing (unread_place hevent hlooks hunread) hlive
  have hstale : (∀ refund, .jobCancelled id refund ∉ events.drop (place + 1)) →
      (kept.map edit).isSome = true →
      now.job.isSome = true := by
    intro hlater hkept
    rw [Option.isSome_map] at hkept
    exact h.stale (uncancelled_place hevent hcancelled hlater) hkept
  rw [hhear] at hparts ⊢
  cases hposting : posting id event with
  | nothing =>
      refine ⟨hlength, h.held_le, hparts, h.accounted_next hevent hposting, ?_, hmissing, hstale⟩
      intro hunread entry hentry
      obtain ⟨found, hfound, rfl⟩ := Option.map_eq_some_iff.mp hentry
      rw [hposted, hposting]
      exact h.balance (unread_place hevent hlooks hunread) found hfound
  | spent fee =>
      refine ⟨hlength, hlength, hparts, fun at' _ hheld hlt => absurd hheld (Nat.not_le.mpr hlt),
        ?_, hmissing,
        hstale⟩
      intro hunread entry hentry
      obtain ⟨found, hfound, rfl⟩ := Option.map_eq_some_iff.mp hentry
      -- The run was not part of the balance when it was read.
      have hheld := hcharged fee hposting (Option.isSome_iff_exists.mpr ⟨found, hfound⟩)
      have hagrees := h.balance (unread_place hevent hlooks hunread) found hfound
      rw [post_from hheld h.accounted, drop_place hevent, post_cons, hposting] at hagrees
      rw [hposted, hposting]
      exact hagrees
  | became told =>
      refine ⟨hlength, hlength, hparts, fun at' _ hheld hlt => absurd hheld (Nat.not_le.mpr hlt),
        ?_, hmissing,
        hstale⟩
      intro hunread entry hentry
      obtain ⟨found, hfound, rfl⟩ := Option.map_eq_some_iff.mp hentry
      rw [hposted, hposting]
      -- What the event tells does not depend on what was kept.
      exact htrue.balance _ _ _ told (split_place hevent) hposting hunread

/-- Hearing the event at `place`. A run must not be charged to a balance that was read after it. -/
theorem heard (htrue : Truthful id events now)
    (hcharged : ∀ fee, posting id event = .spent fee → kept.isSome = true → held ≤ place) :
    Known id events (place + 1) (heldNext id events.length now event place held)
      (hear now.job id event kept) now := by
  unfold heldNext
  by_cases hlooks : Looks id event
  · rw [if_pos hlooks]
    exact h.heard_looks hevent htrue hlooks
  · rw [if_neg hlooks]
    by_cases hcancelled : ∃ refund, event = .jobCancelled id refund
    · obtain ⟨refund, rfl⟩ := hcancelled
      have hnothing : posting id (.jobCancelled id refund) = .nothing := if_pos rfl
      rw [hear_cancelled, hnothing]
      exact h.heard_cancelled hevent htrue rfl
    · exact h.heard_edits hevent htrue hlooks (fun refund heq => hcancelled ⟨refund, heq⟩) hcharged

/-- An event that does not concern the job may be passed over. -/
theorem passed (htrue : Truthful id events now) (htracked : tracked event ≠ some id) :
    Known id events (place + 1) held kept now := by
  have hnothing : posting id event = .nothing := posting_of_untracked htracked
  have hheard := h.heard hevent htrue ?_
  · rw [hear_of_untracked htracked, heldNext, if_neg fun hlooks => htracked hlooks.1,
      hnothing] at hheard
    exact hheard
  · intro fee hspent
    cases hnothing.symm.trans hspent

end Heard

/-- An entry known up to the end of the log is right. -/
theorem exact (h : Known id events events.length held kept now) :
    kept.isSome = now.job.isSome ∧ ∀ entry ∈ kept, ∀ job ∈ now.job,
      (∀ part : Part, part.read entry = part.read job) ∧ job.Agrees entry.balance := by
  have hnone : Unread id (events.drop events.length) := by
    rw [List.drop_length]
    nofun
  refine ⟨?_, ?_⟩
  · apply Bool.eq_iff_iff.mpr
    constructor
    · apply h.stale
      intro refund
      rw [List.drop_length]
      nofun
    · exact h.missing hnone
  · intro entry hentry job hjob
    refine ⟨?_, ?_⟩
    · intro part
      apply h.parts part entry hentry job hjob
      rw [List.drop_length]
      rfl
    · have hagrees := h.balance hnone entry hentry job hjob
      rwa [post_from h.held_le h.accounted, List.drop_length] at hagrees

end Known

end SoroCron.KeeperBot
