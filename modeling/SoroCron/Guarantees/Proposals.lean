import SoroCron.Contracts.Timelock

/-! # Every proposal has its time

A call queued in the DAO timelock executes at most once, after the delay and within its grace
period, and only failures come before its end. No call waits for another that fails: a run either
gets to a ready call or executes ten older ones.
-/

namespace SoroCron.Timelock

open Outcome Bounded

variable {World : Type} {outside : Outside World} {now : Timestamp} {id other : ℕ} {call : Call}
  {s s' : Storage} {t t' : Turn World} {deeds : List Deed}

/-! ## Storage -/

namespace Storage.Sound

theorem new (admin : Address) (delay grace : ℕ) : (Storage.new admin delay grace).Sound := by
  refine ⟨List.Pairwise.nil, ?_, ?_⟩
  · intro id hmem
    cases hmem
  · intro id
    simp [Storage.new]

theorem fresh (h : s.Sound) (hid : s.nextId ≤ id) : s.calls.get id = none := by
  rw [← Option.not_isSome_iff_eq_none, ← h.stored id]
  intro hmem
  exact absurd (h.issued id hmem) (Nat.not_lt.mpr hid)

theorem mem_queued (h : s.Sound) (hcall : s.calls.get id = some call) : id ∈ s.queued := by
  rw [h.stored, hcall]
  rfl

theorem remove (h : s.Sound) (hcall : s.calls.get id = some call) :
    s.remove id = some (s.without id) :=
  if_pos (h.mem_queued hcall)

theorem pushed (h : s.Sound) (call : Call) : (s.pushed call).Sound := by
  refine ⟨?_, ?_, ?_⟩
  · refine List.pairwise_append.mpr ⟨h.ordered, List.pairwise_singleton _ _, ?_⟩
    intro earlier hearlier later hlater
    rw [List.mem_singleton.mp hlater]
    exact h.issued earlier hearlier
  · intro id hid
    rcases List.mem_append.mp hid with hold | hnew
    · exact Nat.lt_succ_of_lt (h.issued id hold)
    · rw [List.mem_singleton.mp hnew]
      exact Nat.lt_succ_self _
  · intro id
    change id ∈ s.queued ++ [s.nextId] ↔ ((s.calls.set s.nextId call).get id).isSome = true
    rw [List.mem_append, List.mem_singleton, Store.get_set, h.stored]
    split
    next heq => simp [heq]
    next hne => simp [hne]

theorem nodup (h : s.Sound) : s.queued.Nodup := h.ordered.imp fun hlt => hlt.ne

theorem without (h : s.Sound) (id : ℕ) : (s.without id).Sound := by
  refine ⟨h.ordered.sublist List.erase_sublist, ?_, ?_⟩
  · intro other hother
    exact h.issued other (List.mem_of_mem_erase hother)
  · intro other
    change other ∈ s.queued.erase id ↔ ((s.calls.remove id).get other).isSome = true
    rw [h.nodup.mem_erase_iff, Store.get_remove, h.stored]
    split
    next heq => simp [heq]
    next hne => simp [hne]

theorem change {deed : Deed} (h : s.Sound) (hchange : Change now deed s s') : s'.Sound := by
  cases hchange with
  | queued => exact h.pushed _
  | failed => exact h
  | _ => exact h.without _

end Storage.Sound

/-- What a deed leaves alone. -/
theorem Change.settings {deed : Deed} (h : Change now deed s s') :
    s'.delay = s.delay ∧ s'.grace = s.grace := by
  cases h with
  | _ => exact ⟨rfl, rfl⟩

/-! ## What a step does -/

/-- One call of the queue costs at most one deed. -/
theorem visit_cases (hsound : t.storage.Sound) (h : visit outside now id t = .ok t') :
    (t' = t ∧ ∀ call ∈ t.storage.calls.get id, now < call.eta) ∨
      ∃ deed, deed.id = id ∧ (∀ call, deed ≠ .queued id call) ∧
        Change now deed t.storage t'.storage ∧
        t'.deeds = t.deeds ++ [deed] ∧
        t'.executed = t.executed + (if deed = .executed id then 1 else 0) ∧
        (deed = .failed id → ∃ call ∈ t.storage.calls.get id,
          outside now t.world call.target call.function call.args = .failed) := by
  unfold visit at h
  split at h
  next hnone =>
    cases h
    exact .inl ⟨rfl, by simp [hnone]⟩
  next call hcall =>
    have hremove := hsound.remove hcall
    split at h
    next hearly =>
      cases h
      exact .inl ⟨rfl, by simpa [hcall] using hearly⟩
    next hready =>
      split at h
      next hlate =>
        cases h
        refine .inr ⟨.expired id, rfl, by simp, ?_, rfl, by simp, by simp⟩
        rw [hremove]
        exact .expired hcall hlate
      next hopen =>
        have hwindow : InWindow t.storage.grace call now := ⟨not_lt.mp hready, not_le.mp hopen⟩
        split at h
        · cases h
          refine .inr ⟨.executed id, rfl, by simp, ?_, rfl, by simp, by simp⟩
          rw [hremove]
          exact .executed hcall hwindow
        next hfailed =>
          cases h
          exact .inr ⟨.failed id, rfl, by simp, .failed hcall hwindow, rfl, by simp,
            fun _ => ⟨call, hcall, hfailed⟩⟩
        · cases h

/-- What a run of the queue did, all of it at time `now`. -/
theorem visitAll_life {ids : List ℕ} (hsound : t.storage.Sound)
    (h : visitAll outside now ids t = .ok t') :
    ∃ deeds, t'.deeds = t.deeds ++ deeds ∧ Life (Change now) deeds t.storage t'.storage := by
  induction ids generalizing t with
  | nil =>
      cases h
      exact ⟨[], (List.append_nil _).symm, .nil _⟩
  | cons id rest ih =>
      unfold visitAll at h
      split at h
      · cases h
        exact ⟨[], (List.append_nil _).symm, .nil _⟩
      · obtain ⟨middle, hvisit, hrest⟩ := bind_eq_ok.mp h
        rcases visit_cases hsound hvisit with ⟨rfl, -⟩ | ⟨deed, -, -, hchange, hdeeds, -⟩
        · exact ih hsound hrest
        · obtain ⟨deeds, hlast, hlife⟩ := ih (hsound.change hchange) hrest
          exact ⟨deed :: deeds, by rw [hlast, hdeeds, List.append_assoc, List.singleton_append],
            .cons hchange hlife⟩

theorem queue_eq_ok {ctx : Ctx} (h : s.queue ctx now call = .ok (id, s')) :
    s.admin ∈ ctx.signers ∧ satAdd64 now s.delay ≤ call.eta ∧ id = s.nextId ∧
      s' = s.pushed call := by
  simp only [Storage.queue, bind_eq_ok, require_eq_ok, raise_eq_ok, rejectIf_eq_ok, exists_unit,
    pure_eq_ok, Prod.mk.injEq, not_lt] at h
  obtain ⟨hsigned, heta, -, rfl, rfl⟩ := h
  exact ⟨hsigned, heta, rfl, rfl⟩

theorem cancel_eq_ok {ctx : Ctx} (h : s.cancel ctx id = .ok s') :
    s.admin ∈ ctx.signers ∧ id ∈ s.queued ∧ s' = s.without id := by
  simp only [Storage.cancel, bind_eq_ok, require_eq_ok, raise_eq_ok, okOr_eq_ok, exists_unit] at h
  obtain ⟨hsigned, hremove⟩ := h
  unfold Storage.remove at hremove
  split at hremove
  next hmem => exact ⟨hsigned, hmem, (Option.some.inj hremove).symm⟩
  next => cases hremove

/-- Whatever the action, the deeds are all that it changes in the timelock. -/
theorem act_life (outside : Outside World) {state : State World} (hsound : state.storage.Sound)
    (action : Action World) : Life (Change state.now) (act outside state action).2 state.storage
      (act outside state action).1.storage := by
  cases action with
  | queue ctx call =>
      simp only [act]
      cases hqueue : state.storage.queue ctx state.now call with
      | error why => exact .nil _
      | ok result =>
          obtain ⟨-, hdelay, hid, hstorage⟩ := queue_eq_ok hqueue
          dsimp only
          rw [hid, hstorage]
          exact .single (.queued hdelay)
  | cancel ctx id =>
      simp only [act]
      cases hcancel : state.storage.cancel ctx id with
      | error why => exact .nil _
      | ok storage =>
          obtain ⟨-, hmem, rfl⟩ := cancel_eq_ok hcancel
          exact .single (.cancelled hmem)
  | executeReady =>
      simp only [act]
      cases hrun : executeReady outside state.now state.world state.storage with
      | error why => exact .nil _
      | ok t =>
          obtain ⟨deeds, hdeeds, hlife⟩ := visitAll_life hsound hrun
          rw [List.nil_append] at hdeeds
          subst hdeeds
          exact hlife
  | pass seconds world => exact .nil _

/-! ## One call -/

/-- Where a call is in its life. -/
inductive Phase where
  | future
  | waiting (call : Call)
  | ended
  deriving DecidableEq

def Storage.phase (s : Storage) (id : ℕ) : Phase :=
  if s.nextId ≤ id then .future else (s.calls.get id).elim .ended .waiting

/-- What a deed about a call does to it, under the timelock's delay and grace period. -/
inductive PhaseChange (delay grace : ℕ) (now : Timestamp) : Deed → Phase → Phase → Prop where
  | queued {id : ℕ} {call : Call} (hdelay : satAdd64 now delay ≤ call.eta) :
      PhaseChange delay grace now (.queued id call) .future (.waiting call)
  | cancelled {id : ℕ} {call : Call} :
      PhaseChange delay grace now (.cancelled id) (.waiting call) .ended
  | executed {id : ℕ} {call : Call} (hwindow : InWindow grace call now) :
      PhaseChange delay grace now (.executed id) (.waiting call) .ended
  | failed {id : ℕ} {call : Call} (hwindow : InWindow grace call now) :
      PhaseChange delay grace now (.failed id) (.waiting call) (.waiting call)
  | expired {id : ℕ} {call : Call} (hlate : satAdd64 call.eta grace ≤ now) :
      PhaseChange delay grace now (.expired id) (.waiting call) .ended

theorem Storage.Sound.phase_waiting (h : s.Sound) (hcall : s.calls.get id = some call) :
    s.phase id = .waiting call := by
  rw [Storage.phase, if_neg (Nat.not_le.mpr (h.issued id (h.mem_queued hcall))), hcall]
  rfl

theorem Storage.Sound.phase_without (h : s.Sound) (hmem : id ∈ s.queued) :
    (s.without id).phase id = .ended := by
  change (if s.nextId ≤ id then _ else ((s.calls.remove id).get id).elim _ _) = _
  rw [if_neg (Nat.not_le.mpr (h.issued id hmem)), Store.get_remove_self]
  rfl

theorem Change.phase {deed : Deed} (hsound : s.Sound) (h : Change now deed s s') :
    PhaseChange s.delay s.grace now deed (s.phase deed.id) (s'.phase deed.id) := by
  cases h with
  | @queued _ call hdelay =>
      have hbefore : s.phase s.nextId = .future := if_pos le_rfl
      have hafter : (s.pushed call).phase s.nextId = .waiting call :=
        (hsound.pushed call).phase_waiting (Store.get_set_self _ _ _)
      change PhaseChange _ _ _ _ (s.phase s.nextId) ((s.pushed call).phase s.nextId)
      rw [hbefore, hafter]
      exact .queued hdelay
  | @cancelled _ id hmem =>
      obtain ⟨call, hcall⟩ := Option.isSome_iff_exists.mp ((hsound.stored id).mp hmem)
      change PhaseChange _ _ _ _ (s.phase id) ((s.without id).phase id)
      rw [hsound.phase_waiting hcall, hsound.phase_without hmem]
      exact .cancelled
  | @executed _ id call hcall hwindow =>
      change PhaseChange _ _ _ _ (s.phase id) ((s.without id).phase id)
      rw [hsound.phase_waiting hcall, hsound.phase_without (hsound.mem_queued hcall)]
      exact .executed hwindow
  | @failed _ id call hcall hwindow =>
      change PhaseChange _ _ _ _ (s.phase id) (s.phase id)
      rw [hsound.phase_waiting hcall]
      exact .failed hwindow
  | @expired _ id call hcall hlate =>
      change PhaseChange _ _ _ _ (s.phase id) ((s.without id).phase id)
      rw [hsound.phase_waiting hcall, hsound.phase_without (hsound.mem_queued hcall)]
      exact .expired hlate

theorem Storage.phase_pushed (call : Call) (hne : other ≠ s.nextId) :
    (s.pushed call).phase other = s.phase other := by
  have hnext : s.nextId + 1 ≤ other ↔ s.nextId ≤ other := by omega
  change (if s.nextId + 1 ≤ other then _ else ((s.calls.set s.nextId call).get other).elim _ _) = _
  rw [Store.get_set_of_ne _ _ hne]
  simp only [hnext]
  rfl

theorem Storage.phase_without_of_ne (hne : other ≠ id) :
    (s.without id).phase other = s.phase other := by
  change (if s.nextId ≤ other then _ else ((s.calls.remove id).get other).elim _ _) = _
  rw [Store.get_remove_of_ne _ hne]
  rfl

/-- A deed about one call leaves the others where they are. -/
theorem Change.phase_of_ne {deed : Deed} (h : Change now deed s s') (hne : other ≠ deed.id) :
    s'.phase other = s.phase other := by
  cases h with
  | queued => exact Storage.phase_pushed _ hne
  | failed => rfl
  | _ => exact Storage.phase_without_of_ne hne

theorem life_phase (hsound : s.Sound) (h : Life (Change now) deeds s s') (id : ℕ) :
    Life (PhaseChange s.delay s.grace now) (deeds.filter fun deed => deed.id = id) (s.phase id)
      (s'.phase id) := by
  induction h with
  | nil => exact .nil _
  | @cons deed deeds before middle after hone _ ih =>
      have hrest := ih (hsound.change hone)
      rw [hone.settings.1, hone.settings.2] at hrest
      by_cases heq : deed.id = id
      · subst heq
        rw [List.filter_cons_of_pos (by simp)]
        exact .cons (hone.phase hsound) hrest
      · rw [List.filter_cons_of_neg (by simpa using heq), ← hone.phase_of_ne (Ne.symm heq)]
        exact hrest

/-! ## From queueing to the end -/

/-- How a call ends. -/
def Ends (grace id : ℕ) (call : Call) : Timestamp × Deed → Prop
  | (time, .executed done) => done = id ∧ InWindow grace call time
  | (time, .expired done) => done = id ∧ satAdd64 call.eta grace ≤ time
  | (_, .cancelled done) => done = id
  | _ => False

/-- Everything done about a call so far, and where this leaves it. -/
inductive Course (delay grace id : ℕ) : List (Timestamp × Deed) → Phase → Prop where
  | future : Course delay grace id [] .future
  | waiting {since : Timestamp} {call : Call} {tries : List (Timestamp × Deed)}
      (hdelay : satAdd64 since delay ≤ call.eta)
      (htries : ∀ entry ∈ tries, entry.2 = .failed id ∧ InWindow grace call entry.1) :
      Course delay grace id ((since, .queued id call) :: tries) (.waiting call)
  | ended {since : Timestamp} {call : Call} {tries : List (Timestamp × Deed)}
      {last : Timestamp × Deed}
      (hdelay : satAdd64 since delay ≤ call.eta)
      (htries : ∀ entry ∈ tries, entry.2 = .failed id ∧ InWindow grace call entry.1)
      (hend : Ends grace id call last) :
      Course delay grace id ((since, .queued id call) :: (tries ++ [last])) .ended

theorem Course.step {delay grace : ℕ} {past : List (Timestamp × Deed)} {deed : Deed}
    {before after : Phase} (h : Course delay grace deed.id past before)
    (hchange : PhaseChange delay grace now deed before after) :
    Course delay grace deed.id (past ++ [(now, deed)]) after := by
  cases hchange with
  | queued hdelay =>
      cases h with
      | future => exact .waiting hdelay (by simp)
  | failed hwindow =>
      cases h with
      | waiting hdelay htries =>
          refine .waiting hdelay ?_
          intro entry hentry
          rcases List.mem_append.mp hentry with hold | hnew
          · exact htries entry hold
          · rw [List.mem_singleton.mp hnew]
            exact ⟨rfl, hwindow⟩
  | cancelled =>
      cases h with
      | waiting hdelay htries => exact .ended hdelay htries rfl
  | executed hwindow =>
      cases h with
      | waiting hdelay htries => exact .ended hdelay htries ⟨rfl, hwindow⟩
  | expired hlate =>
      cases h with
      | waiting hdelay htries => exact .ended hdelay htries ⟨rfl, hlate⟩

theorem life_settings (h : Life (Change now) deeds s s') :
    s'.delay = s.delay ∧ s'.grace = s.grace := by
  refine h.invariant (I := fun later => later.delay = s.delay ∧ later.grace = s.grace) ?_ ⟨rfl, rfl⟩
  rintro deed before after ⟨hdelay, hgrace⟩ hchange
  exact ⟨hchange.settings.1.trans hdelay, hchange.settings.2.trans hgrace⟩

theorem life_sound (hsound : s.Sound) (h : Life (Change now) deeds s s') : s'.Sound :=
  h.invariant (I := Storage.Sound) (fun _ _ _ hbefore hchange => hbefore.change hchange) hsound

/-- What stays true of a timelock with these settings. -/
structure Kept (delay grace : ℕ) (s : Storage) : Prop where
  sound : s.Sound
  delay : s.delay = delay
  grace : s.grace = grace

theorem kept_step {delay grace : ℕ} {state : State World} (h : Kept delay grace state.storage)
    (action : Action World) : Kept delay grace ((system outside).step state action).storage := by
  have hlife := act_life outside h.sound action
  obtain ⟨hdelay, hgrace⟩ := life_settings hlife
  exact ⟨life_sound h.sound hlife, hdelay.trans h.delay, hgrace.trans h.grace⟩

/-- The timelock right after its constructor. -/
def State.deployed (now : Timestamp) (world : World) (admin : Address) (delay grace : ℕ) :
    State World where
  now := now
  world := world
  storage := .new admin delay grace

theorem kept_run (outside : Outside World) (now : Timestamp) (world : World) (admin : Address)
    (delay grace : ℕ) (actions : List (Action World)) :
    Kept delay grace
      ((system outside).run (.deployed now world admin delay grace) actions).storage := by
  refine Machine.invariant_run (I := fun state : State World => Kept delay grace state.storage)
    (fun state action h _ => kept_step h action) ⟨.new admin delay grace, rfl, rfl⟩
    (Machine.along_of_forall (fun _ _ => trivial) _ actions)

/-- Over any run, a call is queued with its delay, fails any number of times within its window, and
then executes within it, expires after it or is cancelled, and nothing is done about it afterwards.
The queue lists the calls that have not come to their end, in the order in which they came. -/
theorem proposals_have_their_time (outside : Outside World) (now : Timestamp) (world : World)
    (admin : Address) (delay grace : ℕ) (actions : List (Action World)) :
    let start := State.deployed now world admin delay grace
    let final := (system outside).run start actions
    (∀ id, Course delay grace id
      (((system outside).outputs start actions).filter fun entry => entry.2.id = id)
      (final.storage.phase id)) ∧
    final.storage.queued.Pairwise (· < ·) ∧
    ∀ id, id ∈ final.storage.queued ↔ ∃ call, final.storage.phase id = .waiting call := by
  have hkept := kept_run outside now world admin delay grace actions
  refine ⟨?_, hkept.sound.ordered, ?_⟩
  · intro id
    let J : List (Timestamp × Deed) → State World → Prop :=
      fun past state => Kept delay grace state.storage ∧
      Course delay grace id (past.filter fun entry => entry.2.id = id) (state.storage.phase id)
    have hlast : J ([] ++ (system outside).outputs (.deployed now world admin delay grace) actions)
        ((system outside).run (.deployed now world admin delay grace) actions) := by
      refine Machine.history_run ?_ [] ⟨⟨.new admin delay grace, rfl, rfl⟩, .future⟩
        (Machine.along_of_forall (fun _ _ => trivial) _ actions)
      rintro past state action ⟨hstate, hcourse⟩ -
      refine ⟨kept_step hstate action, ?_⟩
      have hlife := life_phase hstate.sound (act_life outside hstate.sound action) id
      rw [hstate.delay, hstate.grace] at hlife
      have hout : (((system outside).out state action).filter fun entry => entry.2.id = id) =
          ((act outside state action).2.filter fun deed => deed.id = id).map (state.now, ·) := by
        change ((act outside state action).2.map _).filter _ = _
        rw [List.filter_map]
        rfl
      rw [List.filter_append, hout]
      have hall : ∀ deed ∈ (act outside state action).2.filter
          fun deed => deed.id = id, deed.id = id := by
        intro deed hdeed
        simpa using (List.mem_filter.mp hdeed).2
      have hgrown := Life.history (J := fun (deeds : List Deed) phase =>
        Course delay grace id ((past.filter fun entry => entry.2.id = id) ++
          deeds.map (state.now, ·)) phase)
        ?_ [] ?_ (hlife.restrict hall)
      · exact hgrown
      · rintro deeds deed before after hbefore ⟨rfl, hchange⟩
        rw [List.map_append, ← List.append_assoc]
        exact hbefore.step hchange
      · rw [List.map_nil, List.append_nil]
        exact hcourse
    exact hlast.2
  · intro id
    rw [hkept.sound.stored]
    constructor
    · intro hsome
      obtain ⟨call, hcall⟩ := Option.isSome_iff_exists.mp hsome
      exact ⟨call, hkept.sound.phase_waiting hcall⟩
    · rintro ⟨call, hwaiting⟩
      unfold Storage.phase at hwaiting
      split at hwaiting
      · cases hwaiting
      · cases hcall : ((system outside).run
          (.deployed now world admin delay grace) actions).storage.calls.get id with
        | none =>
            rw [hcall] at hwaiting
            cases hwaiting
        | some found => rfl

/-! ## No call waits for another -/

/-- How many queued calls are older. -/
def Storage.older (s : Storage) (id : ℕ) : ℕ := s.queued.countP (· < id)

theorem Change.calls_of_ne {deed : Deed} (h : Change now deed s s')
    (hcall : s.calls.get id = some call)
    (hissued : id < s.nextId) (hne : deed.id ≠ id) : s'.calls.get id = some call := by
  cases h with
  | queued => exact (Store.get_set_of_ne _ _ hissued.ne).trans hcall
  | failed => exact hcall
  | _ => exact (Store.get_remove_of_ne _ (Ne.symm hne)).trans hcall

/-- A new call is younger than every queued one. -/
theorem Change.older_le {deed : Deed} (h : Change now deed s s') (hissued : id < s.nextId) :
    s'.older id ≤ s.older id := by
  cases h with
  | queued =>
      change (s.queued ++ [s.nextId]).countP _ ≤ _
      rw [List.countP_append, List.countP_singleton, if_neg (by simpa using hissued.le)]
      exact le_rfl
  | failed => exact le_rfl
  | _ => exact List.erase_sublist.countP_le

/-- An older call that executes makes room. -/
theorem Change.older_executed (h : Change now (.executed other) s s') (hsound : s.Sound)
    (hlt : other < id) : s'.older id + 1 = s.older id := by
  cases h with
  | executed hcall =>
      change (s.queued.erase other).countP _ + 1 = s.queued.countP _
      have hmem := hsound.mem_queued hcall
      have hpos : 0 < s.queued.countP (· < id) :=
        List.countP_pos_iff.mpr ⟨other, hmem, by simpa using hlt⟩
      rw [List.countP_erase, if_pos ⟨hmem, by simpa using hlt⟩]
      omega

/-- A waiting call is left as it is until something is done about it. -/
theorem life_waits (hsound : s.Sound) (hcall : s.calls.get id = some call)
    (h : Life (Change now) deeds s s') : (∃ deed ∈ deeds, deed.id = id ∧ ∃ phase,
      PhaseChange s.delay s.grace now deed (.waiting call) phase) ∨
      ((∀ deed ∈ deeds, deed.id ≠ id) ∧ s'.calls.get id = some call ∧
        s'.older id ≤ s.older id) := by
  induction h with
  | nil => exact .inr ⟨by simp, hcall, le_rfl⟩
  | @cons deed deeds before middle after hone _ ih =>
      have hissued := hsound.issued id (hsound.mem_queued hcall)
      by_cases heq : deed.id = id
      · have hchange := hone.phase hsound
        rw [heq, hsound.phase_waiting hcall] at hchange
        exact .inl ⟨deed, List.mem_cons_self, heq, _, hchange⟩
      · rcases ih (hsound.change hone) (hone.calls_of_ne hcall hissued heq) with
          ⟨later, hmem, hid, hchange⟩ | ⟨hothers, hkept, hle⟩
        · rw [hone.settings.1, hone.settings.2] at hchange
          exact .inl ⟨later, List.mem_cons_of_mem _ hmem, hid, hchange⟩
        · exact .inr ⟨List.forall_mem_cons.mpr ⟨heq, hothers⟩, hkept,
            hle.trans (hone.older_le hissued)⟩

/-- Only queueing adds calls. -/
theorem Change.calls_before {deed : Deed} (h : Change now deed s s')
    (hold : ∀ call, deed ≠ .queued deed.id call)
    (hcall : s'.calls.get id = some call) : s.calls.get id = some call := by
  cases h with
  | queued => exact absurd rfl (hold _)
  | failed => exact hcall
  | _ =>
      change (s.calls.remove _).get id = some call at hcall
      rw [Store.get_remove] at hcall
      split at hcall
      · cases hcall
      · exact hcall

/-- In a run, a failure is the target's. -/
theorem visitAll_failed {ids : List ℕ} (hsound : t.storage.Sound)
    (h : visitAll outside now ids t = .ok t') (hmem : .failed id ∈ t'.deeds) :
    .failed id ∈ t.deeds ∨ ∃ call ∈ t.storage.calls.get id, ∃ world,
      outside now world call.target call.function call.args = .failed := by
  induction ids generalizing t with
  | nil =>
      cases h
      exact .inl hmem
  | cons other rest ih =>
      unfold visitAll at h
      split at h
      · cases h
        exact .inl hmem
      · obtain ⟨middle, hvisit, hrest⟩ := bind_eq_ok.mp h
        rcases visit_cases hsound hvisit with ⟨rfl, -⟩ |
          ⟨deed, rfl, hold, hchange, hdeeds, -, hfailed⟩
        · exact ih hsound hrest
        · rcases ih (hsound.change hchange) hrest with hearlier | ⟨call, hcall, world, hworld⟩
          · rw [hdeeds, List.mem_append, List.mem_singleton] at hearlier
            rcases hearlier with hearlier | rfl
            · exact .inl hearlier
            · obtain ⟨call, hcall, hworld⟩ := hfailed rfl
              exact .inr ⟨call, hcall, _, hworld⟩
          · exact .inr ⟨call, hchange.calls_before hold hcall, world, hworld⟩

/-- A run that has room gets to a ready call, or executes older ones until it has none. -/
theorem visitAll_reaches {earlier later : List ℕ} (hsound : t.storage.Sound)
    (hearlier : ∀ other ∈ earlier, other < id) (hcall : t.storage.calls.get id = some call)
    (hready : call.eta ≤ now) (h : visitAll outside now (earlier ++ id :: later) t = .ok t') :
    (∃ deed ∈ t'.deeds, deed.id = id) ∨
      (maxPerRun ≤ t'.executed ∧ t'.executed + t'.storage.older id ≤
        t.executed + t.storage.older id) := by
  induction earlier generalizing t with
  | nil =>
      rw [List.nil_append, visitAll] at h
      split at h
      next hfull =>
        cases h
        exact .inr ⟨hfull, le_rfl⟩
      next =>
        obtain ⟨middle, hvisit, hrest⟩ := bind_eq_ok.mp h
        rcases visit_cases hsound hvisit with ⟨-, hearly⟩ | ⟨deed, hid, -, hchange, hdeeds, -⟩
        · exact absurd hready (Nat.not_le.mpr (hearly call hcall))
        · obtain ⟨deeds, hlast, -⟩ := visitAll_life (hsound.change hchange) hrest
          refine .inl ⟨deed, ?_, hid⟩
          rw [hlast, hdeeds]
          simp
  | cons other rest ih =>
      rw [List.cons_append, visitAll] at h
      split at h
      next hfull =>
        cases h
        exact .inr ⟨hfull, le_rfl⟩
      next =>
        have hlt := hearlier other List.mem_cons_self
        have hrestlt : ∀ other ∈ rest, other < id :=
          fun other hmem => hearlier other (List.mem_cons_of_mem _ hmem)
        obtain ⟨middle, hvisit, hrest⟩ := bind_eq_ok.mp h
        rcases visit_cases hsound hvisit with ⟨rfl, -⟩ | ⟨deed, hid, hold, hchange, -, hexecuted, -⟩
        · exact ih hsound hrestlt hcall hrest
        · have hissued := hsound.issued id (hsound.mem_queued hcall)
          have hkept := hchange.calls_of_ne hcall hissued (hid ▸ hlt.ne)
          rcases ih (hsound.change hchange) hrestlt hkept hrest with hdone | ⟨hfull, hsum⟩
          · exact .inl hdone
          · refine .inr ⟨hfull, hsum.trans ?_⟩
            have hle := hchange.older_le hissued
            rw [hexecuted]
            split
            next hdone =>
              have hroom := (hdone ▸ hchange).older_executed hsound hlt
              omega
            next => omega

/-- Every executed call is a deed of the run. -/
theorem visitAll_executed {ids : List ℕ} (hsound : t.storage.Sound)
    (h : visitAll outside now ids t = .ok t')
    (hcounted : t.executed ≤ t.deeds.length) : t'.executed ≤ t'.deeds.length := by
  induction ids generalizing t with
  | nil =>
      cases h
      exact hcounted
  | cons id rest ih =>
      unfold visitAll at h
      split at h
      · cases h
        exact hcounted
      · obtain ⟨middle, hvisit, hrest⟩ := bind_eq_ok.mp h
        rcases visit_cases hsound hvisit with ⟨rfl, -⟩ | ⟨deed, -, -, hchange, hdeeds, hexecuted, -⟩
        · exact ih hsound hrest hcounted
        · refine ih (hsound.change hchange) hrest ?_
          rw [hexecuted, hdeeds, List.length_append, List.length_singleton]
          split
          · omega
          · omega

/-- The queue around one of its calls. -/
theorem Storage.Sound.split (h : s.Sound) (hcall : s.calls.get id = some call) :
    ∃ earlier later, s.queued = earlier ++ id :: later ∧ ∀ other ∈ earlier, other < id := by
  obtain ⟨earlier, later, hqueued⟩ := List.append_of_mem (h.mem_queued hcall)
  refine ⟨earlier, later, hqueued, ?_⟩
  have hordered := h.ordered
  rw [hqueued, List.pairwise_append] at hordered
  exact fun other hmem => hordered.2.2 other hmem id List.mem_cons_self

theorem executeReady_reaches {world : World} (hsound : s.Sound) (hcall : s.calls.get id = some call)
    (hready : call.eta ≤ now) (h : executeReady outside now world s = .ok t) :
    (∃ deed ∈ t.deeds, deed.id = id) ∨
      (maxPerRun ≤ t.executed ∧ maxPerRun + t.storage.older id ≤ s.older id) := by
  obtain ⟨earlier, later, hqueued, hearlier⟩ := hsound.split hcall
  rw [executeReady, hqueued] at h
  rcases visitAll_reaches hsound hearlier hcall hready h with hdone | ⟨hfull, hsum⟩
  · exact .inl hdone
  · refine .inr ⟨hfull, (Nat.add_le_add_right hfull _).trans (hsum.trans ?_)⟩
    exact (Nat.zero_add _).le

/-! ## The resolver -/

/-- A queue with nothing ready is passed over. -/
theorem visitAll_early {ids : List ℕ}
    (hearly : ∀ id ∈ ids, ∀ call ∈ t.storage.calls.get id, now < call.eta) :
    visitAll outside now ids t = .ok t := by
  induction ids with
  | nil => rfl
  | cons id rest ih =>
      obtain ⟨hfirst, hrest⟩ := List.forall_mem_cons.mp hearly
      have hvisit : visit outside now id t = .ok t := by
        unfold visit
        split
        next => rfl
        next call hcall => exact if_pos (hfirst call hcall)
      rw [visitAll, hvisit]
      split
      · rfl
      · exact ih hrest

/-- The resolver advises exactly the runs that do something, unless they run out of the budget. -/
theorem shouldRun_iff (world : World) (hsound : s.Sound) :
    s.shouldRun now = true ↔ ∀ t, executeReady outside now world s = .ok t → t.deeds ≠ [] := by
  have hready : s.shouldRun now = true ↔
      ∃ id ∈ s.queued, ∃ call ∈ s.calls.get id, call.eta ≤ now := by
    simp [Storage.shouldRun, Option.any_eq_true]
  rw [hready]
  constructor
  · rintro ⟨id, -, call, hcall, hnow⟩ t hrun hnone
    rcases executeReady_reaches hsound hcall hnow hrun with ⟨deed, hmem, -⟩ | ⟨hfull, -⟩
    · rw [hnone] at hmem
      cases hmem
    · have hcounted := visitAll_executed hsound hrun le_rfl
      rw [hnone] at hcounted
      exact absurd (hfull.trans hcounted) (by decide)
  · intro hsome
    by_contra hnone
    refine hsome _ (visitAll_early (t := { storage := s, world }) ?_) rfl
    intro id hmem call hcall
    by_contra hlate
    exact hnone ⟨id, hmem, call, hcall, not_lt.mp hlate⟩

/-! ## Chances -/

/-- The action runs the queue, and does not run out of the budget. -/
def Action.completes (outside : Outside World) (state : State World) : Action World → Bool
  | .executeReady => (Timelock.executeReady outside state.now state.world state.storage).isOk
  | _ => false

/-- How many runs of the queue complete while the call may execute. -/
def chances (outside : Outside World) (call : Call) : State World → List (Action World) → ℕ
  | _, [] => 0
  | state, action :: rest =>
      (if action.completes outside state = true ∧ InWindow state.storage.grace call state.now then 1
        else 0) +
        chances outside call ((system outside).step state action) rest

/-- The call executed, failed in its target or was cancelled. -/
def Served (outside : Outside World) (id : ℕ) (call : Call) : Timestamp × Deed → Prop
  | (_, .executed done) => done = id
  | (_, .cancelled done) => done = id
  | (time, .failed done) =>
      done = id ∧ ∃ world, outside time world call.target call.function call.args = .failed
  | _ => False

theorem chances_over {state : State World} (hgrace : Kept delay grace state.storage)
    (hlate : satAdd64 call.eta grace ≤ state.now) (actions : List (Action World)) :
    chances outside call state actions = 0 := by
  induction actions generalizing state with
  | nil => rfl
  | cons action rest ih =>
      have hlater : state.now ≤ ((system outside).step state action).now := by
        cases action with
        | pass seconds world => exact Nat.le_add_right _ _
        | queue ctx call =>
            simp only [system, act]
            split
            · exact le_rfl
            · exact le_rfl
        | cancel ctx id =>
            simp only [system, act]
            split
            · exact le_rfl
            · exact le_rfl
        | executeReady =>
            simp only [system, act]
            split
            · exact le_rfl
            · exact le_rfl
      rw [chances, ih (kept_step hgrace action) (hlate.trans hlater), if_neg]
      rintro ⟨-, hwindow⟩
      rw [hgrace.grace] at hwindow
      exact absurd hwindow.2 (Nat.not_lt.mpr hlate)

/-- In one step a waiting call is served, is too late, or comes ten places closer if it had a
chance. -/
theorem step_waits (outside : Outside World) {state : State World} (hsound : state.storage.Sound)
    (hcall : state.storage.calls.get id = some call) (action : Action World) :
    (∃ deed ∈ (act outside state action).2, Served outside id call (state.now, deed)) ∨
      satAdd64 call.eta state.storage.grace ≤ state.now ∨
      ((act outside state action).1.storage.calls.get id = some call ∧
        (act outside state action).1.storage.older id + maxPerRun *
          (if action.completes outside state = true ∧ InWindow state.storage.grace call state.now
            then 1 else 0) ≤
            state.storage.older id) := by
  rcases life_waits hsound hcall (act_life outside hsound action) with
    ⟨deed, hmem, hid, phase, hchange⟩ | ⟨hothers, hkept, hle⟩
  · cases hchange with
    | cancelled => exact .inl ⟨_, hmem, hid⟩
    | executed => exact .inl ⟨_, hmem, hid⟩
    | expired hlate => exact .inr (.inl hlate)
    | failed =>
        refine .inl ⟨_, hmem, hid, ?_⟩
        cases hid
        cases action with
        | executeReady =>
            simp only [act] at hmem
            cases hrun : executeReady outside state.now state.world state.storage with
            | error why =>
                rw [hrun] at hmem
                cases hmem
            | ok t =>
                rw [hrun] at hmem
                rcases visitAll_failed hsound hrun hmem with hold | ⟨found, hfound, hworld⟩
                · cases hold
                · cases hcall.symm.trans hfound
                  exact hworld
        | queue ctx call =>
            simp only [act] at hmem
            split at hmem
            · cases List.mem_singleton.mp hmem
            · cases hmem
        | cancel ctx id =>
            simp only [act] at hmem
            split at hmem
            · cases List.mem_singleton.mp hmem
            · cases hmem
        | pass seconds world => cases hmem
  · refine .inr (.inr ⟨hkept, ?_⟩)
    split
    next hchance =>
      obtain ⟨hcompletes, hwindow⟩ := hchance
      cases action with
      | executeReady =>
          simp only [act, Action.completes] at hcompletes hothers ⊢
          cases hrun : executeReady outside state.now state.world state.storage with
          | error why =>
              rw [hrun] at hcompletes
              cases hcompletes
          | ok t =>
              rw [hrun] at hothers
              rcases executeReady_reaches hsound hcall hwindow.1 hrun with ⟨deed, hmem, hid⟩ |
                ⟨-, hroom⟩
              · exact absurd hid (hothers deed hmem)
              · dsimp only
                omega
      | _ => cases hcompletes
    next => exact hle

/-- A call that is waiting is executed, cancelled or refused by its own target before it has had
more chances than one for every ten older calls, whatever those do; and the resolver advises
exactly the runs that do something. -/
theorem no_proposal_waits (outside : Outside World) (now : Timestamp) (world : World)
    (admin : Address) (delay grace : ℕ) (before : List (Action World)) :
    let state := (system outside).run (.deployed now world admin delay grace) before
    (∀ id call later, state.storage.calls.get id = some call →
      state.storage.older id / maxPerRun < chances outside call state later →
      ∃ entry ∈ (system outside).outputs state later, Served outside id call entry) ∧
    (state.storage.shouldRun state.now = true ↔
      ∀ t, executeReady outside state.now state.world state.storage = .ok t → t.deeds ≠ []) := by
  have hkept := kept_run outside now world admin delay grace before
  refine ⟨?_, shouldRun_iff _ hkept.sound⟩
  generalize (system outside).run (.deployed now world admin delay grace) before = state at hkept
  intro id call later hcall hchances
  induction later generalizing state with
  | nil => exact absurd hchances (Nat.not_lt_zero _)
  | cons action rest ih =>
      rcases step_waits outside hkept.sound hcall action with ⟨deed, hmem, hserved⟩ | hlate |
        ⟨hstill, hroom⟩
      · refine ⟨(state.now, deed), List.mem_append_left _ ?_, hserved⟩
        exact List.mem_map.mpr ⟨deed, hmem, rfl⟩
      · rw [hkept.grace] at hlate
        rw [chances_over hkept hlate] at hchances
        exact absurd hchances (Nat.not_lt_zero _)
      · have hmore : ((system outside).step state action).storage.older id / maxPerRun <
            chances outside call ((system outside).step state action) rest := by
          rw [chances] at hchances
          simp only [maxPerRun] at hroom hchances ⊢
          change (act outside state action).1.storage.older id / 10 < _
          split at hchances
          next hchance =>
            rw [if_pos hchance] at hroom
            omega
          next hnone =>
            rw [if_neg hnone] at hroom
            omega
        obtain ⟨entry, hentry, hserved⟩ := ih _ (kept_step hkept action) hstill hmore
        exact ⟨entry, List.mem_append_right _ hentry, hserved⟩

/-- Every target but one takes its calls. -/
def oneBroken : Outside Unit :=
  fun _ world target _ _ => if target = ⟨1⟩ then .failed else .returned world

def proposal (target : Address) : Call where
  target := target
  function := "hit"
  args := []
  eta := 100

/-- A call behind one that fails has its turn in the first run. -/
theorem no_proposal_waits_behind :
    ∃ entry ∈ (system oneBroken).outputs
        ((system oneBroken).run (.deployed 0 () ⟨9⟩ 50 1000)
          [.queue ⟨[⟨9⟩]⟩ (proposal ⟨1⟩), .queue ⟨[⟨9⟩]⟩ (proposal ⟨2⟩)])
        [.pass 100 (), .executeReady],
      Served oneBroken 1 (proposal ⟨2⟩) entry := by
  refine (no_proposal_waits oneBroken 0 () ⟨9⟩ 50 1000
    [.queue ⟨[⟨9⟩]⟩ (proposal ⟨1⟩), .queue ⟨[⟨9⟩]⟩ (proposal ⟨2⟩)]).1 1 (proposal ⟨2⟩) _ ?_ ?_
  · decide +kernel
  · decide +kernel

end SoroCron.Timelock
