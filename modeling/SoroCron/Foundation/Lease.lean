import SoroCron.Foundation.Store

/-! # Entries that run out

A ledger keeps an entry until some later ledger. Reading or writing the entry extends it if
little time is left, and nothing else does: an entry touched in every stretch of `threshold`
ledgers never runs out, and one left alone for long enough always does.
-/

namespace Lease

/-- The terms on which entries are kept, in ledgers. -/
structure LeaseTerms where
  /-- What a new entry starts with. -/
  initial : ℕ
  /-- An entry with less than this left is extended when touched. -/
  threshold : ℕ
  extendTo : ℕ
  threshold_le : threshold ≤ extendTo
  deriving DecidableEq

/-- One use of an entry. Reading an absent entry has no effect. -/
inductive Access (K : Type) where
  | read (key : K)
  | write (key : K)
  | remove (key : K)
  deriving DecidableEq

/-- The current ledger and the ledger that each entry is kept until. -/
structure Leases (K : Type) where
  ledger : ℕ
  liveUntil : Store K ℕ

/-- What can happen to entries at once: a transaction uses some of them, or ledgers close. -/
inductive LeaseStep (K : Type) where
  | accesses (used : List (Access K))
  | close (ledgers : ℕ)

variable {K : Type} [DecidableEq K]

/-! ## Operations -/

/-- What is left after an extension. -/
def LeaseTerms.extended (terms : LeaseTerms) (left : ℕ) : ℕ :=
  if left < terms.threshold then terms.extendTo else left

def Access.touches (key : K) : Access K → Bool
  | .read used => used = key
  | .write used => used = key
  | .remove _ => false

section Touches

variable (key used : K)

@[simp] theorem Access.touches_read : (Access.read used).touches key = decide (used = key) := rfl

@[simp] theorem Access.touches_write : (Access.write used).touches key = decide (used = key) := rfl

@[simp] theorem Access.touches_remove : (Access.remove used).touches key = false := rfl

end Touches

def LeaseStep.touches (key : K) : LeaseStep K → Bool
  | .accesses used => used.any (·.touches key)
  | .close _ => false

/-- How many ledgers close in a step. -/
def LeaseStep.closes : LeaseStep K → ℕ
  | .accesses _ => 0
  | .close ledgers => ledgers

def closings (steps : List (LeaseStep K)) : ℕ := (steps.map LeaseStep.closes).sum

namespace Leases

/-- How many ledgers an entry has left; `some 0` once it has run out. -/
def ttl (leases : Leases K) (key : K) : Option ℕ :=
  (leases.liveUntil.get key).map fun ledger => ledger - leases.ledger

/-- There is such an entry and it has not run out. -/
def Alive (leases : Leases K) (key : K) : Prop := ∃ left ∈ leases.ttl key, 0 < left

def extend (terms : LeaseTerms) (leases : Leases K) (key : K) : Leases K :=
  match leases.ttl key with
  | some left => { leases with
      liveUntil := leases.liveUntil.set key (leases.ledger + terms.extended left) }
  | none => leases

/-- An entry that is written for the first time. -/
def create (terms : LeaseTerms) (leases : Leases K) (key : K) : Leases K :=
  match leases.ttl key with
  | some _ => leases
  | none => { leases with liveUntil := leases.liveUntil.set key (leases.ledger + terms.initial) }

def access (terms : LeaseTerms) (leases : Leases K) : Access K → Leases K
  | .read key => leases.extend terms key
  | .write key => (leases.create terms key).extend terms key
  | .remove key => { leases with liveUntil := leases.liveUntil.remove key }

def step (terms : LeaseTerms) (leases : Leases K) : LeaseStep K → Leases K
  | .accesses used => used.foldl (access terms) leases
  | .close ledgers => { leases with ledger := leases.ledger + ledgers }

def run (terms : LeaseTerms) (leases : Leases K) (steps : List (LeaseStep K)) : Leases K :=
  steps.foldl (step terms) leases

end Leases

/-! ## What one entry has left -/

namespace Leases

variable (terms : LeaseTerms) (leases : Leases K)

theorem ttl_extend (key other : K) :
    (leases.extend terms key).ttl other =
      if other = key then (leases.ttl other).map terms.extended else leases.ttl other := by
  unfold extend
  cases hleft : leases.ttl key with
  | none =>
      by_cases heq : other = key
      · rw [if_pos heq, heq, hleft]
        rfl
      · rw [if_neg heq]
  | some left =>
      by_cases heq : other = key
      · subst heq
        rw [if_pos rfl, hleft]
        simp [ttl]
      · rw [if_neg heq]
        simp [ttl, Store.get_set_of_ne _ _ heq]

theorem ttl_create (key other : K) :
    (leases.create terms key).ttl other =
      if other = key then some ((leases.ttl other).getD terms.initial) else leases.ttl other := by
  unfold create
  cases hleft : leases.ttl key with
  | some left =>
      by_cases heq : other = key
      · rw [if_pos heq, heq, hleft]
        rfl
      · rw [if_neg heq]
  | none =>
      by_cases heq : other = key
      · subst heq
        rw [if_pos rfl, hleft]
        simp [ttl]
      · rw [if_neg heq]
        simp [ttl, Store.get_set_of_ne _ _ heq]

end Leases

/-- What an access does to what one entry has left. -/
def Access.effect (terms : LeaseTerms) (key : K) (left : Option ℕ) : Access K → Option ℕ
  | .read used => if key = used then left.map terms.extended else left
  | .write used => if key = used then some (terms.extended (left.getD terms.initial)) else left
  | .remove used => if key = used then none else left

theorem Leases.ttl_access (terms : LeaseTerms) (leases : Leases K) (used : Access K) (key : K) :
    (leases.access terms used).ttl key = used.effect terms key (leases.ttl key) := by
  cases used with
  | read used => exact ttl_extend terms leases used key
  | write used =>
      rw [access, ttl_extend, ttl_create, Access.effect]
      split
      · rfl
      · rfl
  | remove used =>
      change ((leases.liveUntil.remove used).get key).map _ = _
      rw [Store.get_remove, Access.effect]
      split
      · rfl
      · rfl

theorem Leases.ttl_close (terms : LeaseTerms) (leases : Leases K) (ledgers : ℕ) (key : K) :
    (leases.step terms (.close ledgers)).ttl key = (leases.ttl key).map fun left =>
      left - ledgers := by
  simp only [ttl, step, Option.map_map]
  congr 1
  funext ledger
  exact Nat.sub_add_eq ledger leases.ledger ledgers

/-! ## Presence -/

namespace Leases

variable {terms : LeaseTerms} {leases : Leases K} {used : List (Access K)} {key : K}

/-- An entry that is not removed stays. -/
theorem held_of_kept (hheld : (leases.ttl key).isSome = true) (hkept : .remove key ∉ used) :
    ((used.foldl (access terms) leases).ttl key).isSome = true := by
  induction used generalizing leases with
  | nil => exact hheld
  | cons first rest ih =>
      refine ih ?_ fun hremoved => hkept (List.mem_cons_of_mem _ hremoved)
      rw [ttl_access]
      cases first with
      | read other =>
          rw [Access.effect]
          split
          · rw [Option.isSome_map]
            exact hheld
          · exact hheld
      | write other =>
          rw [Access.effect]
          split
          · rfl
          · exact hheld
      | remove other =>
          have hne : key ≠ other := by
            rintro rfl
            exact hkept List.mem_cons_self
          rw [Access.effect, if_neg hne]
          exact hheld

/-- An entry that is written and not removed is there. -/
theorem held_of_written (hwritten : .write key ∈ used) (hkept : .remove key ∉ used) :
    ((used.foldl (access terms) leases).ttl key).isSome = true := by
  induction used generalizing leases with
  | nil => cases hwritten
  | cons first rest ih =>
      have hrest : .remove key ∉ rest := fun hremoved => hkept (List.mem_cons_of_mem _ hremoved)
      rcases List.mem_cons.mp hwritten with rfl | hlater
      · change ((rest.foldl (access terms) (leases.access terms (.write key))).ttl key).isSome =
          true
        refine held_of_kept ?_ hrest
        rw [ttl_access, Access.effect, if_pos rfl]
        rfl
      · exact ih hlater hrest

theorem held_of_close (ledgers : ℕ) (hheld : (leases.ttl key).isSome = true) :
    ((leases.step terms (.close ledgers)).ttl key).isSome = true := by
  rw [ttl_close, Option.isSome_map]
  exact hheld

end Leases

/-! ## Slack -/

/-- What is left and `spent` ledgers make up a full threshold. -/
def LeaseTerms.Slack (terms : LeaseTerms) (spent : ℕ) (left : Option ℕ) : Prop :=
  ∀ ledgers ∈ left, terms.threshold ≤ ledgers + spent

/-- What is left and `spent` ledgers are no more than an entry ever has. -/
def LeaseTerms.Within (terms : LeaseTerms) (spent : ℕ) (left : Option ℕ) : Prop :=
  ∀ ledgers ∈ left, 0 < ledgers → ledgers + spent ≤ max terms.initial terms.extendTo

section Slack

variable {terms : LeaseTerms} {key : K} {spent : ℕ} {left : Option ℕ}

theorem LeaseTerms.threshold_le_extended (terms : LeaseTerms) (left : ℕ) :
    terms.threshold ≤ terms.extended left := by
  unfold extended
  split
  · exact terms.threshold_le
  next hlong => exact not_lt.mp hlong

theorem LeaseTerms.extended_le (terms : LeaseTerms) (left : ℕ) :
    terms.extended left ≤ max left terms.extendTo := by
  unfold extended
  split
  · exact le_max_right _ _
  · exact le_max_left _ _

theorem Access.slack_of_touches (used : Access K) (htouches : used.touches key = true) :
    terms.Slack 0 (used.effect terms key left) := by
  intro ledgers hledgers
  cases used with
  | read used =>
      have heq : used = key := of_decide_eq_true htouches
      rw [effect, if_pos heq.symm] at hledgers
      obtain ⟨before, -, rfl⟩ := Option.map_eq_some_iff.mp hledgers
      exact terms.threshold_le_extended before
  | write used =>
      have heq : used = key := of_decide_eq_true htouches
      rw [effect, if_pos heq.symm] at hledgers
      cases hledgers
      exact terms.threshold_le_extended _
  | remove used => cases htouches

/-- An access that does not touch an entry leaves it alone or removes it. -/
theorem Access.effect_of_untouched (used : Access K) (huntouched : used.touches key = false) :
    used.effect terms key left = left ∨ used.effect terms key left = none := by
  cases used with
  | read used =>
      have hne : key ≠ used := fun heq => of_decide_eq_false huntouched heq.symm
      exact .inl (if_neg hne)
  | write used =>
      have hne : key ≠ used := fun heq => of_decide_eq_false huntouched heq.symm
      exact .inl (if_neg hne)
  | remove used =>
      rw [effect]
      split
      · exact .inr rfl
      · exact .inl rfl

theorem Access.slack (used : Access K) (hslack : terms.Slack spent left) :
    terms.Slack spent (used.effect terms key left) := by
  cases htouches : used.touches key with
  | true =>
      intro ledgers hledgers
      exact Nat.le_add_right_of_le (used.slack_of_touches htouches ledgers hledgers)
  | false =>
      rcases used.effect_of_untouched htouches with hkept | hgone
      · rw [hkept]
        exact hslack
      · rw [hgone]
        intro ledgers hledgers
        cases hledgers

theorem Leases.slack_accesses {leases : Leases K} {used : List (Access K)}
    (hslack : terms.Slack spent (leases.ttl key)) :
    terms.Slack spent ((used.foldl (access terms) leases).ttl key) := by
  induction used generalizing leases with
  | nil => exact hslack
  | cons first rest ih =>
      apply ih
      rw [ttl_access]
      exact first.slack hslack

/-- Once touched, an entry has a full threshold. -/
theorem Leases.slack_of_touches {leases : Leases K} {used : List (Access K)}
    (htouches : ∃ one ∈ used, one.touches key = true) :
    terms.Slack 0 ((used.foldl (access terms) leases).ttl key) := by
  induction used generalizing leases with
  | nil =>
      obtain ⟨one, hone, -⟩ := htouches
      cases hone
  | cons first rest ih =>
      obtain ⟨one, hone, htouch⟩ := htouches
      rcases List.mem_cons.mp hone with rfl | hrest
      · change terms.Slack 0 ((rest.foldl (access terms) (leases.access terms one)).ttl key)
        apply slack_accesses
        rw [ttl_access]
        exact one.slack_of_touches htouch
      · exact ih ⟨one, hrest, htouch⟩

theorem Leases.slack_step {leases : Leases K} (step : LeaseStep K)
    (hslack : terms.Slack spent (leases.ttl key)) :
    terms.Slack (spent + step.closes) ((leases.step terms step).ttl key) := by
  cases step with
  | accesses used => exact slack_accesses hslack
  | close ledgers =>
      rw [ttl_close]
      intro after hafter
      obtain ⟨before, hbefore, rfl⟩ := Option.map_eq_some_iff.mp hafter
      have hbound := hslack before hbefore
      rw [LeaseStep.closes]
      omega

theorem Leases.slack_run {leases : Leases K} (steps : List (LeaseStep K))
    (hslack : terms.Slack spent (leases.ttl key)) :
    terms.Slack (spent + closings steps) ((leases.run terms steps).ttl key) := by
  induction steps generalizing leases spent with
  | nil => exact hslack
  | cons first rest ih =>
      have hrest := ih (slack_step first hslack)
      rw [Nat.add_assoc] at hrest
      exact hrest

theorem Access.within (used : Access K) (hwithin : terms.Within 0 left) :
    terms.Within 0 (used.effect terms key left) := by
  have hextended : ∀ before : ℕ, before ≤ max terms.initial terms.extendTo →
      terms.extended before ≤ max terms.initial terms.extendTo := by
    intro before hbefore
    have hbound := terms.extended_le before
    omega
  have hleft : ∀ ledgers ∈ left, ledgers ≤ max terms.initial terms.extendTo := by
    intro ledgers hledgers
    rcases Nat.eq_zero_or_pos ledgers with hzero | hpos
    · omega
    · exact hwithin ledgers hledgers hpos
  intro ledgers hledgers hpos
  cases htouches : used.touches key with
  | false =>
      rcases used.effect_of_untouched htouches with hkept | hgone
      · rw [hkept] at hledgers
        exact hwithin ledgers hledgers hpos
      · rw [hgone] at hledgers
        cases hledgers
  | true =>
      cases used with
      | read used =>
          rw [effect, if_pos (of_decide_eq_true htouches).symm] at hledgers
          obtain ⟨before, hbefore, rfl⟩ := Option.map_eq_some_iff.mp hledgers
          exact hextended before (hleft before hbefore)
      | write used =>
          rw [effect, if_pos (of_decide_eq_true htouches).symm] at hledgers
          cases hledgers
          apply hextended
          cases left with
          | none => exact le_max_left _ _
          | some before => exact hleft before rfl
      | remove used => cases htouches

theorem Leases.within_accesses {leases : Leases K} {used : List (Access K)}
    (hwithin : terms.Within 0 (leases.ttl key)) :
    terms.Within 0 ((used.foldl (access terms) leases).ttl key) := by
  induction used generalizing leases with
  | nil => exact hwithin
  | cons first rest ih =>
      apply ih
      rw [ttl_access]
      exact first.within hwithin

theorem Leases.within_close {leases : Leases K} (ledgers : ℕ)
    (hwithin : terms.Within spent (leases.ttl key)) :
    terms.Within (spent + ledgers) ((leases.step terms (.close ledgers)).ttl key) := by
  rw [ttl_close]
  intro after hafter hpos
  obtain ⟨before, hbefore, rfl⟩ := Option.map_eq_some_iff.mp hafter
  have hbound := hwithin before hbefore (by omega)
  omega

theorem Leases.within_quiet {leases : Leases K} {used : List (Access K)}
    (huntouched : ∀ one ∈ used, ¬ one.touches key = true)
    (hwithin : terms.Within spent (leases.ttl key)) :
    terms.Within spent ((used.foldl (access terms) leases).ttl key) := by
  induction used generalizing leases with
  | nil => exact hwithin
  | cons first rest ih =>
      apply ih fun one hone => huntouched one (List.mem_cons_of_mem _ hone)
      rw [ttl_access]
      have hfirst := Bool.eq_false_of_not_eq_true (huntouched first List.mem_cons_self)
      rcases first.effect_of_untouched hfirst with hkept | hgone
      · rw [hkept]
        exact hwithin
      · rw [hgone]
        intro ledgers hledgers
        cases hledgers

/-- While nothing touches an entry, closing ledgers use it up. -/
theorem Leases.within_untouched {leases : Leases K} {steps : List (LeaseStep K)}
    (huntouched : ∀ step ∈ steps, step.touches key = false)
    (hwithin : terms.Within spent (leases.ttl key)) :
    terms.Within (spent + closings steps) ((leases.run terms steps).ttl key) := by
  induction steps generalizing leases spent with
  | nil => exact hwithin
  | cons step rest ih =>
      have hrest : ∀ step ∈ rest, step.touches key = false := fun one hone =>
        huntouched one (List.mem_cons_of_mem _ hone)
      have hstep : terms.Within (spent + step.closes) ((leases.step terms step).ttl key) := by
        cases step with
        | close ledgers => exact within_close ledgers hwithin
        | accesses used =>
            have hquiet := huntouched _ List.mem_cons_self
            exact within_quiet (List.any_eq_false.mp hquiet) hwithin
      have hlast := ih hrest hstep
      rw [Nat.add_assoc] at hlast
      exact hlast

end Slack

/-! ## Runs -/

section Runs

variable {terms : LeaseTerms} {leases : Leases K} {key : K} {steps : List (LeaseStep K)}

/-- The steps up to the last one that touches an entry, and those after it. -/
theorem exists_untouched_suffix (key : K) (steps : List (LeaseStep K)) :
    ∃ first last, steps = first ++ last ∧ (∀ step ∈ last, step.touches key = false) ∧
      (first = [] ∨ ∃ before step, first = before ++ [step] ∧ step.touches key = true) := by
  induction steps using List.reverseRecOn with
  | nil => exact ⟨[], [], rfl, by simp, .inl rfl⟩
  | append_singleton steps step ih =>
      cases htouches : step.touches key with
      | true => exact ⟨steps ++ [step], [], by simp, by simp, .inr ⟨steps, step, rfl, htouches⟩⟩
      | false =>
          obtain ⟨first, last, rfl, hlast, hfirst⟩ := ih
          refine ⟨first, last ++ [step], by simp, ?_, hfirst⟩
          intro one hone
          rcases List.mem_append.mp hone with hold | hnew
          · exact hlast one hold
          · rw [List.mem_singleton.mp hnew]
            exact htouches

theorem Leases.run_append (leases : Leases K) (first second : List (LeaseStep K)) :
    leases.run terms (first ++ second) = (leases.run terms first).run terms second :=
  List.foldl_append

/-- An entry that is new in a run and touched in every stretch of `threshold` ledgers has not run
out. -/
theorem Leases.lasting (hnew : leases.ttl key = none)
    (hoften : ∀ first last, steps = first ++ last → terms.threshold ≤ closings last →
      ∃ step ∈ last, step.touches key = true) {left : ℕ}
    (hleft : (leases.run terms steps).ttl key = some left) : 0 < left := by
  obtain ⟨first, last, rfl, huntouched, hfirst⟩ := exists_untouched_suffix key steps
  have hrecent : closings last < terms.threshold := by
    by_contra hlong
    obtain ⟨step, hmem, htouches⟩ := hoften first last rfl (not_lt.mp hlong)
    rw [huntouched step hmem] at htouches
    cases htouches
  have hfull : terms.Slack 0 ((leases.run terms first).ttl key) := by
    rcases hfirst with rfl | ⟨before, step, rfl, htouches⟩
    · intro ledgers hledgers
      rw [run, List.foldl_nil, hnew] at hledgers
      cases hledgers
    · rw [run, List.foldl_append]
      cases step with
      | accesses used => exact slack_of_touches (List.any_eq_true.mp htouches)
      | close ledgers => cases htouches
  rw [run_append] at hleft
  have hlast := slack_run last hfull left hleft
  omega

/-- Nothing ever has more left than a new or an extended entry. -/
theorem Leases.within_run (hwithin : terms.Within 0 (leases.ttl key)) :
    terms.Within 0 ((leases.run terms steps).ttl key) := by
  induction steps generalizing leases with
  | nil => exact hwithin
  | cons step rest ih =>
      apply ih
      cases step with
      | accesses used => exact within_accesses hwithin
      | close ledgers =>
          intro after hafter hpos
          have hbound := within_close ledgers hwithin after hafter hpos
          omega

/-- An entry that is left alone for as long as entries are kept has run out. -/
theorem Leases.lapsed {first last : List (LeaseStep K)} (hnew : leases.ttl key = none)
    (huntouched : ∀ step ∈ last, step.touches key = false)
    (hlong : max terms.initial terms.extendTo ≤ closings last) {left : ℕ}
    (hleft : (leases.run terms (first ++ last)).ttl key = some left) : left = 0 := by
  have hfirst : terms.Within 0 ((leases.run terms first).ttl key) := by
    apply within_run
    rw [hnew]
    intro ledgers hledgers
    cases hledgers
  rw [run_append] at hleft
  have hlast := within_untouched huntouched hfirst left hleft
  by_contra hne
  have hbound := hlast (Nat.pos_of_ne_zero hne)
  omega

end Runs

/-! ## Entries that are looked after -/

/-- An entry had `patience` ledgers left `spent` ledgers ago. -/
def HeldFor (patience spent : ℕ) (left : Option ℕ) : Prop :=
  ∃ ledgers ∈ left, patience ≤ ledgers + spent

/-- An entry has at least as much left as it had. -/
def NoShorter (left left' : Option ℕ) : Prop :=
  ∀ ledgers ∈ left, ∃ ledgers' ∈ left', ledgers ≤ ledgers'

section HeldFor

variable {patience spent : ℕ} {left left' left'' : Option ℕ}

theorem LeaseTerms.le_extended (terms : LeaseTerms) (left : ℕ) : left ≤ terms.extended left := by
  unfold extended
  split
  next hshort => exact hshort.le.trans terms.threshold_le
  next => exact le_rfl

theorem NoShorter.refl (left : Option ℕ) : NoShorter left left :=
  fun ledgers hledgers => ⟨ledgers, hledgers, le_rfl⟩

theorem NoShorter.trans (h : NoShorter left left') (h' : NoShorter left' left'') :
    NoShorter left left'' := by
  intro ledgers hledgers
  obtain ⟨middle, hmiddle, hle⟩ := h ledgers hledgers
  obtain ⟨last, hlast, hle'⟩ := h' middle hmiddle
  exact ⟨last, hlast, hle.trans hle'⟩

theorem noShorter_extended (terms : LeaseTerms) (left : Option ℕ) :
    NoShorter left (left.map terms.extended) := by
  intro ledgers hledgers
  exact ⟨terms.extended ledgers, Option.mem_map_of_mem _ hledgers, terms.le_extended ledgers⟩

theorem HeldFor.mono {patience' : ℕ} (h : HeldFor patience spent left)
    (hle : patience' ≤ patience) : HeldFor patience' spent left := by
  obtain ⟨ledgers, hledgers, henough⟩ := h
  exact ⟨ledgers, hledgers, hle.trans henough⟩

theorem HeldFor.noShorter (h : HeldFor patience spent left) (hlonger : NoShorter left left') :
    HeldFor patience spent left' := by
  obtain ⟨ledgers, hledgers, hle⟩ := h
  obtain ⟨ledgers', hledgers', hle'⟩ := hlonger ledgers hledgers
  exact ⟨ledgers', hledgers', hle.trans (Nat.add_le_add_right hle' spent)⟩

theorem HeldFor.close (h : HeldFor patience spent left) (closed : ℕ) :
    HeldFor patience (spent + closed) (left.map fun ledgers => ledgers - closed) := by
  obtain ⟨ledgers, hledgers, hle⟩ := h
  refine ⟨ledgers - closed, Option.mem_map_of_mem _ hledgers, ?_⟩
  omega

theorem HeldFor.alive (h : HeldFor patience spent left) (hsoon : spent < patience) :
    ∃ ledgers ∈ left, 0 < ledgers := by
  obtain ⟨ledgers, hledgers, hle⟩ := h
  exact ⟨ledgers, hledgers, by omega⟩

end HeldFor

end Lease
