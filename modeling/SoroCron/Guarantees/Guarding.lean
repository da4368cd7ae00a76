import Mathlib.Data.List.Infix
import SoroCron.Contracts.TtlGuardian

/-! # Guarded contracts are never archived

Contracts that a job has the guardian extend never run out while the job is run in every stretch of
as many ledgers as its threshold, and then each of its runs succeeds, whatever anyone else has the
guardian do. No call ever leaves an entry with less than it had, or with more than the network
allows.
-/

namespace SoroCron.TtlGuardian

open Outcome Lease

variable {network : Network} {s s' : Ledger} {address : Address} {addresses : List Address}
  {key : LedgerKey}
  {keys : List LedgerKey} {terms : LeaseTerms} {threshold extendTo patience spent : ℕ}

namespace Ledger

/-! ## One extension -/

theorem ttl_extendAll (keys : List LedgerKey) (leases : Leases LedgerKey) (key : LedgerKey) :
    NoShorter (leases.ttl key) ((keys.foldl (Leases.extend terms) leases).ttl key) := by
  induction keys generalizing leases with
  | nil => exact .refl _
  | cons first rest ih =>
      refine .trans ?_ (ih _)
      rw [Leases.ttl_extend]
      split
      · exact noShorter_extended terms _
      · exact .refl _

/-- Every entry that is extended has at least the threshold left. -/
theorem ttl_extended {keys : List LedgerKey} (leases : Leases LedgerKey) (hmem : key ∈ keys)
    (hpresent : ∃ left, left ∈ leases.ttl key) :
    HeldFor terms.threshold 0 ((keys.foldl (Leases.extend terms) leases).ttl key) := by
  induction keys generalizing leases with
  | nil => cases hmem
  | cons first rest ih =>
      obtain ⟨left, hleft⟩ := hpresent
      rcases List.mem_cons.mp hmem with rfl | hmem
      · refine HeldFor.noShorter ?_ (ttl_extendAll rest _ _)
        rw [Leases.ttl_extend, if_pos rfl]
        exact ⟨terms.extended left, Option.mem_map_of_mem _ hleft, terms.threshold_le_extended left⟩
      · have hkept : NoShorter (leases.ttl key) ((leases.extend terms first).ttl key) :=
          ttl_extendAll [first] leases key
        obtain ⟨left', hleft', -⟩ := hkept left hleft
        exact ih _ hmem ⟨left', hleft'⟩

/-- What a call of the guardian never makes worse. -/
structure Longer (s s' : Ledger) : Prop where
  code : s'.code = s.code
  ttl : ∀ key, NoShorter (s.ttl key) (s'.ttl key)

theorem Longer.trans {s'' : Ledger} (h : Longer s s') (h' : Longer s' s'') : Longer s s'' :=
  ⟨h'.code.trans h.code, fun key => (h.ttl key).trans (h'.ttl key)⟩

theorem hasAll_iff : s.hasAll keys = true ↔ ∀ key ∈ keys, ∃ left ∈ s.ttl key, 0 < left := by
  simp [hasAll, List.all_eq_true, Option.any_eq_true]

theorem live_iff : s.live address = true ↔
    ∃ code, s.code.get address = some code ∧ s.hasAll (keysOf address code) = true := by
  simp [live, Option.any_eq_true]

theorem Longer.hasAll (h : Longer s s') (hall : s.hasAll keys = true) : s'.hasAll keys = true := by
  rw [hasAll_iff] at hall ⊢
  intro key hmem
  obtain ⟨left, hleft, hpos⟩ := hall key hmem
  obtain ⟨left', hleft', hle⟩ := h.ttl key left hleft
  exact ⟨left', hleft', hpos.trans_le hle⟩

theorem Longer.live (h : Longer s s') (hlive : s.live address = true) : s'.live address = true := by
  obtain ⟨code, hcode, hall⟩ := live_iff.mp hlive
  exact live_iff.mpr ⟨code, h.code ▸ hcode, h.hasAll hall⟩

/-! ## Contracts that are looked after -/

/-- A contract had `patience` ledgers left `spent` ledgers ago. -/
def Secured (patience spent : ℕ) (s : Ledger) (address : Address) : Prop :=
  ∃ code, s.code.get address = some code ∧
    ∀ key ∈ keysOf address code, HeldFor patience spent (s.ttl key)

theorem Secured.live (h : Secured patience spent s address) (hsoon : spent < patience) :
    s.live address = true := by
  obtain ⟨code, hcode, hheld⟩ := h
  refine live_iff.mpr ⟨code, hcode, hasAll_iff.mpr ?_⟩
  intro key hmem
  exact (hheld key hmem).alive hsoon

theorem Secured.longer (h : Secured patience spent s address) (hlonger : Longer s s') :
    Secured patience spent s' address := by
  obtain ⟨code, hcode, hheld⟩ := h
  exact ⟨code, hlonger.code ▸ hcode, fun key hmem => (hheld key hmem).noShorter (hlonger.ttl key)⟩

theorem extendTtl_ok {terms : LeaseTerms} : s.extendTtl address terms = .ok s' ↔
    ∃ code, s.code.get address = some code ∧ s.hasAll (keysOf address code) = true ∧
      s' = { s with leases := (keysOf address code).foldl (Leases.extend terms) s.leases } := by
  simp only [extendTtl, bind_eq_ok, orTrap_eq_ok, require_eq_ok, exists_unit, pure_eq_ok,
    eq_comm (a := s')]

theorem extendOne_longer {applied : ℕ}
    (h : s.extendOne network address threshold extendTo = .ok (applied, s')) : Longer s s' := by
  unfold extendOne at h
  dsimp only at h
  split at h
  next hvalid =>
    simp only [bind_eq_ok, extendTtl_ok, pure_eq_ok, Prod.mk.injEq] at h
    obtain ⟨_, ⟨code, -, -, rfl⟩, -, rfl⟩ := h
    exact ⟨rfl, fun key => ttl_extendAll _ _ key⟩
  next => cases h

theorem extendEach_longer {applied : List ℕ}
    (h : extendEach network threshold extendTo addresses s = .ok (applied, s')) : Longer s s' := by
  induction addresses generalizing s applied with
  | nil =>
      cases h
      exact ⟨rfl, fun key => .refl _⟩
  | cons address rest ih =>
      simp only [extendEach, bind_eq_ok, pure_eq_ok] at h
      obtain ⟨⟨one, middle⟩, hone, ⟨more, last⟩, hmore, hlast⟩ := h
      cases hlast
      exact (extendOne_longer hone).trans (ih hmore)

/-- A call with valid terms extends any contract that can be called. -/
theorem extendOne_live (hvalid : threshold ≤ min extendTo network.maxTtl)
    (hlive : s.live address = true) :
    ∃ s', s.extendOne network address threshold extendTo = .ok (min extendTo network.maxTtl, s') ∧
      Longer s s' ∧ Secured threshold 0 s' address := by
  obtain ⟨code, hcode, hall⟩ := live_iff.mp hlive
  let terms : LeaseTerms :=
    ⟨network.initial, min (threshold + 1) (min extendTo network.maxTtl),
      min extendTo network.maxTtl, Nat.min_le_right _ _⟩
  let s' : Ledger := { s with leases := (keysOf address code).foldl (Leases.extend terms) s.leases }
  have hone : s.extendOne network address threshold extendTo =
      .ok (min extendTo network.maxTtl, s') := by
    unfold extendOne
    dsimp only
    rw [if_pos hvalid, extendTtl_ok.mpr ⟨code, hcode, hall, rfl⟩]
    rfl
  refine ⟨s', hone, extendOne_longer hone, code, hcode, ?_⟩
  intro key hmem
  obtain ⟨left, hleft, -⟩ := hasAll_iff.mp hall key hmem
  have hheld : HeldFor terms.threshold 0
      (((keysOf address code).foldl (Leases.extend terms) s.leases).ttl key) :=
    ttl_extended s.leases hmem ⟨left, hleft⟩
  exact hheld.mono (le_min (Nat.le_succ threshold) hvalid)

theorem extendEach_live (hvalid : threshold ≤ min extendTo network.maxTtl)
    (hlive : ∀ address ∈ addresses, s.live address = true) :
    ∃ s', extendEach network threshold extendTo addresses s =
        .ok (addresses.map fun _ => min extendTo network.maxTtl, s') ∧
      ∀ address ∈ addresses, Secured threshold 0 s' address := by
  induction addresses generalizing s with
  | nil => exact ⟨s, rfl, List.forall_mem_nil _⟩
  | cons address rest ih =>
      obtain ⟨middle, hone, hlonger, hsecured⟩ :=
        extendOne_live hvalid (hlive address List.mem_cons_self)
      obtain ⟨s', hrest, hothers⟩ :=
        ih fun other hmem => hlonger.live (hlive other (List.mem_cons_of_mem _ hmem))
      refine ⟨s', ?_, ?_⟩
      · rw [extendEach, hone]
        change (extendEach network threshold extendTo rest middle >>= _) = _
        rw [hrest]
        rfl
      · intro other hmem
        rcases List.mem_cons.mp hmem with rfl | hmem
        · exact hsecured.longer (extendEach_longer hrest)
        · exact hothers other hmem

/-! ## The network's limit -/

/-- No entry has more left than the network allows. -/
def Limited (network : Network) (leases : Leases LedgerKey) : Prop :=
  ∀ key, ∀ left ∈ leases.ttl key, left ≤ network.maxTtl

theorem Limited.extendAll {leases : Leases LedgerKey} (h : Limited network leases)
    (hterms : terms.extendTo ≤ network.maxTtl) (keys : List LedgerKey) :
    Limited network (keys.foldl (Leases.extend terms) leases) := by
  induction keys generalizing leases with
  | nil => exact h
  | cons first rest ih =>
      refine ih ?_
      intro key left hleft
      rw [Leases.ttl_extend] at hleft
      split at hleft
      · obtain ⟨before, hbefore, rfl⟩ := Option.map_eq_some_iff.mp hleft
        exact (terms.extended_le before).trans (max_le (h key before hbefore) hterms)
      · exact h key left hleft

theorem Limited.createAll {leases : Leases LedgerKey} (h : Limited network leases)
    (hterms : terms.initial ≤ network.maxTtl) (keys : List LedgerKey) :
    Limited network (keys.foldl (Leases.create terms) leases) := by
  induction keys generalizing leases with
  | nil => exact h
  | cons first rest ih =>
      refine ih ?_
      intro key left hleft
      rw [Leases.ttl_create] at hleft
      split at hleft
      · cases Option.some.inj hleft
        cases hbefore : leases.ttl key with
        | none => exact hterms
        | some before => exact h key before hbefore
      · exact h key left hleft

theorem Limited.extendOne {applied : ℕ} (h : Limited network s.leases)
    (hcall : s.extendOne network address threshold extendTo = .ok (applied, s')) :
    Limited network s'.leases := by
  unfold Ledger.extendOne at hcall
  dsimp only at hcall
  split at hcall
  next hvalid =>
    simp only [bind_eq_ok, extendTtl_ok, pure_eq_ok, Prod.mk.injEq] at hcall
    obtain ⟨_, ⟨code, -, -, rfl⟩, -, rfl⟩ := hcall
    exact h.extendAll (Nat.min_le_right _ _) _
  next => cases hcall

theorem Limited.extendEach {applied : List ℕ} (h : Limited network s.leases)
    (hcall : extendEach network threshold extendTo addresses s = .ok (applied, s')) :
    Limited network s'.leases := by
  induction addresses generalizing s applied with
  | nil =>
      cases hcall
      exact h
  | cons address rest ih =>
      simp only [Ledger.extendEach, bind_eq_ok, pure_eq_ok] at hcall
      obtain ⟨⟨one, middle⟩, hone, ⟨more, last⟩, hmore, hlast⟩ := hcall
      cases hlast
      exact ih (h.extendOne hone) hmore

theorem Limited.extendMany {applied : List ℕ} (h : Limited network s.leases)
    (hcall : s.extendMany network addresses threshold extendTo = .ok (applied, s')) :
    Limited network s'.leases := by
  simp only [Ledger.extendMany, bind_eq_ok] at hcall
  obtain ⟨_, -, heach⟩ := hcall
  exact h.extendEach heach

/-! ## One action -/

theorem ttl_create (keys : List LedgerKey) (leases : Leases LedgerKey) (key : LedgerKey) :
    NoShorter (leases.ttl key) ((keys.foldl (Leases.create terms) leases).ttl key) := by
  induction keys generalizing leases with
  | nil => exact .refl _
  | cons first rest ih =>
      refine .trans ?_ (ih _)
      rw [Leases.ttl_create]
      split
      · intro left hleft
        exact ⟨left, by rw [Option.mem_def.mp hleft]; rfl, le_rfl⟩
      · exact .refl _

theorem extendMany_longer {applied : List ℕ}
    (h : s.extendMany network addresses threshold extendTo = .ok (applied, s')) : Longer s s' := by
  simp only [extendMany, bind_eq_ok] at h
  obtain ⟨_, -, heach⟩ := h
  exact extendEach_longer heach

/-- An action only extends entries, or adds a contract, changes the code of one, or closes
ledgers. -/
theorem step_cases (network : Network) (s : Ledger) (action : Action) :
    (action.closes = 0 ∧ Longer s (s.step network action) ∧
      (Limited network s.leases → Limited network (s.step network action).leases)) ∨
    (∃ address code, action = .deploy address code ∧ s.code.has address = false ∧
      s.step network action = s.create network address code) ∨
    (∃ address hash, action = .upgrade address hash ∧
      s.step network action = { s with code := s.code.set address (some hash) }) ∨
    ∃ ledgers, action = .close ledgers ∧
      s.step network action = { s with
        leases := s.leases.step network.terms (.close ledgers) } := by
  have hsame : Longer s s ∧ (Limited network s.leases → Limited network s.leases) :=
    ⟨⟨rfl, fun _ => .refl _⟩, id⟩
  cases action with
  | extend address threshold extendTo =>
      refine .inl ⟨rfl, ?_⟩
      simp only [step, afterCall]
      split
      · cases hcall : s.extend network address threshold extendTo with
        | error _ => exact hsame
        | ok result => exact ⟨extendOne_longer hcall, fun hlimited => hlimited.extendOne hcall⟩
      · exact hsame
  | extendMany addresses threshold extendTo =>
      refine .inl ⟨rfl, ?_⟩
      simp only [step, afterCall]
      split
      · cases hcall : s.extendMany network addresses threshold extendTo with
        | error _ => exact hsame
        | ok result => exact ⟨extendMany_longer hcall, fun hlimited => hlimited.extendMany hcall⟩
      · exact hsame
  | lengthen key terms =>
      refine .inl ⟨rfl, ?_⟩
      simp only [step]
      split
      next hallowed =>
        exact ⟨⟨rfl, ttl_extendAll [key] s.leases⟩, fun hlimited =>
          hlimited.extendAll hallowed.1 [key]⟩
      next => exact hsame
  | deploy address code =>
      by_cases hnew : s.code.has address = false ∧
          (s.create network address code).hasAll (keysOf address code) = true
      · exact .inr (.inl ⟨address, code, rfl, hnew.1, if_pos hnew⟩)
      · have hstill : s.step network (.deploy address code) = s := if_neg hnew
        rw [hstill]
        exact .inl ⟨rfl, hsame⟩
  | upgrade address hash =>
      by_cases hthere : s.live address = true ∧ s.hasAll [.code hash] = true
      · exact .inr (.inr (.inl ⟨address, hash, rfl, if_pos hthere⟩))
      · have hstill : s.step network (.upgrade address hash) = s := if_neg hthere
        rw [hstill]
        exact .inl ⟨rfl, hsame⟩
  | close ledgers => exact .inr (.inr (.inr ⟨ledgers, rfl, rfl⟩))

/-- Entries lose what time passes, and nothing more. -/
theorem ttl_step (network : Network) (action : Action) (key : LedgerKey) :
    NoShorter ((s.ttl key).map fun left => left - action.closes)
      ((s.step network action).ttl key) := by
  have hstill : NoShorter ((s.ttl key).map fun left => left - 0) (s.ttl key) := by
    simpa using NoShorter.refl (s.ttl key)
  obtain ⟨hcloses, hlonger, -⟩ | ⟨address, code, rfl, -, hstep⟩ | ⟨address, hash, rfl, hstep⟩ |
    ⟨ledgers, rfl, hstep⟩ := step_cases network s action
  · rw [hcloses]
    exact hstill.trans (hlonger.ttl key)
  · rw [hstep]
    exact hstill.trans (ttl_create _ _ _)
  · rw [hstep]
    exact hstill
  · rw [hstep]
    have hclose := Leases.ttl_close network.terms s.leases ledgers key
    change NoShorter _ ((s.leases.step network.terms (.close ledgers)).ttl key)
    rw [hclose]
    exact .refl _

/-- Only an upgrade changes what a contract runs. -/
theorem code_step {code : Option Digest} (hcode : s.code.get address = some code) {action : Action}
    (hkept : ∀ hash, action ≠ .upgrade address hash) :
    (s.step network action).code.get address = some code := by
  obtain ⟨-, hlonger, -⟩ | ⟨other, new, rfl, hnew, hstep⟩ | ⟨other, hash, rfl, hstep⟩ |
      ⟨ledgers, rfl, hstep⟩ :=
    step_cases network s action
  · rw [hlonger.code]
    exact hcode
  · have hne : address ≠ other := by
      rintro rfl
      rw [Store.has, hcode] at hnew
      cases hnew
    rw [hstep]
    exact (Store.get_set_of_ne _ _ hne).trans hcode
  · have hne : address ≠ other := by
      rintro rfl
      exact hkept hash rfl
    rw [hstep]
    exact (Store.get_set_of_ne _ _ hne).trans hcode
  · rw [hstep]
    exact hcode

theorem Limited.step (h : Limited network s.leases) (action : Action) :
    Limited network (s.step network action).leases := by
  obtain ⟨-, -, hkeeps⟩ | ⟨address, code, -, -, hstep⟩ | ⟨address, hash, -, hstep⟩ |
      ⟨ledgers, -, hstep⟩ :=
    step_cases network s action
  · exact hkeeps h
  · rw [hstep]
    exact h.createAll network.initial_le _
  · rw [hstep]
    exact h
  · rw [hstep]
    intro key left hleft
    rw [Leases.ttl_close] at hleft
    obtain ⟨before, hbefore, rfl⟩ := Option.map_eq_some_iff.mp hleft
    exact (Nat.sub_le _ _).trans (h key before hbefore)

theorem Secured.step (h : Secured patience spent s address) {action : Action}
    (hkept : ∀ hash, action ≠ .upgrade address hash) :
    Secured patience (spent + action.closes) (s.step network action) address := by
  obtain ⟨code, hcode, hheld⟩ := h
  refine ⟨code, code_step hcode hkept, ?_⟩
  intro key hmem
  exact ((hheld key hmem).close action.closes).noShorter (ttl_step _ action key)

end Ledger

/-! ## Runs -/

def closings (actions : List Action) : ℕ := (actions.map Action.closes).sum

/-- The ledger before any contract. -/
def Ledger.genesis : Ledger where
  leases := { ledger := 0, liveUntil := ∅ }
  code := ∅

theorem ttl_run (network : Network) (actions : List Action) (s : Ledger) (key : LedgerKey) :
    NoShorter ((s.ttl key).map fun left => left - closings actions)
      (((system network).run s actions).ttl key) := by
  induction actions generalizing s with
  | nil => simpa [closings] using NoShorter.refl (s.ttl key)
  | cons action rest ih =>
      intro later hlater
      obtain ⟨left, hleft, rfl⟩ := Option.map_eq_some_iff.mp hlater
      obtain ⟨middle, hmiddle, hle⟩ := Ledger.ttl_step network action key (left - action.closes)
        (Option.mem_map_of_mem _ hleft)
      obtain ⟨last, hlast, hle'⟩ := ih (s.step network action) (middle - closings rest)
        (Option.mem_map_of_mem _ hmiddle)
      refine ⟨last, hlast, ?_⟩
      simp only [closings, List.map_cons, List.sum_cons] at hle' ⊢
      omega

/-- What a job has extended: one contract, or several in one call. -/
inductive Guarded where
  | one (address : Address)
  | several (addresses : List Address)

namespace Guarded

def contracts : Guarded → List Address
  | .one address => [address]
  | .several addresses => addresses

def call (guarded : Guarded) (threshold extendTo : ℕ) : Action :=
  match guarded with
  | .one address => .extend address threshold extendTo
  | .several addresses => .extendMany addresses threshold extendTo

end Guarded

/-- What the job's call returns. -/
def Ledger.guard (network : Network) (s : Ledger) (guarded : Guarded) (threshold extendTo : ℕ) :
    Result (List ℕ × Ledger) :=
  match guarded with
  | .one address => do
      let (applied, s) ← s.extend network address threshold extendTo
      return ([applied], s)
  | .several addresses => s.extendMany network addresses threshold extendTo

/-- A job makes its call in every stretch of `threshold` ledgers. Nobody upgrades the contracts it
is about, and the guardian can be called, if it is not among them itself. -/
structure Tended (network : Network) (guarded : Guarded) (threshold extendTo : ℕ) (s : Ledger)
    (actions : List Action) : Prop where
  few : guarded.contracts.length ≤ maxExtendMany
  valid : threshold ≤ min extendTo network.maxTtl
  live : ∀ address ∈ guarded.contracts, s.live address = true
  often : ∀ before middle after, actions = before ++ middle ++ after → threshold ≤ closings middle →
    guarded.call threshold extendTo ∈ middle
  kept : ∀ address ∈ guarded.contracts, ∀ hash, .upgrade address hash ∉ actions
  callable : network.guardian ∈ guarded.contracts ∨ ∀ before after,
    guarded.call threshold extendTo :: actions =
      before ++ guarded.call threshold extendTo :: after →
      ((system network).run s before).live network.guardian = true

theorem guard_live {guarded : Guarded} (hfew : guarded.contracts.length ≤ maxExtendMany)
    (hvalid : threshold ≤ min extendTo network.maxTtl)
    (hlive : ∀ address ∈ guarded.contracts, s.live address = true) :
    ∃ s', s.guard network guarded threshold extendTo =
        .ok (guarded.contracts.map fun _ => min extendTo network.maxTtl, s') ∧
      ∀ address ∈ guarded.contracts, Ledger.Secured threshold 0 s' address := by
  cases guarded with
  | one address =>
      obtain ⟨s', hone, -, hsecured⟩ :=
        Ledger.extendOne_live hvalid (hlive address List.mem_cons_self)
      refine ⟨s', ?_, ?_⟩
      · rw [Ledger.guard, Ledger.extend, hone]
        rfl
      · intro other hmem
        rw [List.mem_singleton.mp hmem]
        exact hsecured
  | several addresses =>
      obtain ⟨s', heach, hsecured⟩ := Ledger.extendEach_live hvalid hlive
      refine ⟨s', ?_, hsecured⟩
      have hallowed : ¬maxExtendMany < addresses.length := not_lt.mpr hfew
      change Ledger.extendEach network threshold extendTo addresses s = _ at heach
      rw [Ledger.guard, Ledger.extendMany, heach, rejectIf_eq_ok (u := ()).mpr hallowed]
      rfl

/-- The job's call does what it returns, where the guardian can be called. -/
theorem step_call {guarded : Guarded} {applied : List ℕ} (hlive : s.live network.guardian = true)
    (hguard : s.guard network guarded threshold extendTo = .ok (applied, s')) :
    s.step network (guarded.call threshold extendTo) = s' := by
  cases guarded with
  | one address =>
      simp only [Ledger.guard, bind_eq_ok, pure_eq_ok] at hguard
      obtain ⟨⟨one, last⟩, hone, hlast⟩ := hguard
      cases hlast
      simp only [Guarded.call, Ledger.step, Ledger.afterCall, hlive, hone, if_true]
  | several addresses =>
      rw [Ledger.guard] at hguard
      simp only [Guarded.call, Ledger.step, Ledger.afterCall, hlive, hguard, if_true]

theorem closings_append (first second : List Action) :
    closings (first ++ second) = closings first + closings second := by
  simp [closings]

/-- What has passed since the job's last run. -/
theorem secured_run {guarded : Guarded} {actions : List Action}
    (h : Tended network guarded threshold extendTo s actions) :
    ∃ early late, actions = early ++ late ∧ guarded.call threshold extendTo ∉ late ∧
      ∀ address ∈ guarded.contracts, Ledger.Secured threshold (closings late)
        ((system network).run s (guarded.call threshold extendTo :: actions)) address := by
  have hcall : ∀ s : Ledger, (∀ address ∈ guarded.contracts, s.live address = true) →
      s.live network.guardian = true → ∀ address ∈ guarded.contracts,
        Ledger.Secured threshold 0 (s.step network (guarded.call threshold extendTo)) address := by
    intro s hlive hguardian address hmem
    obtain ⟨s', hguard, hsecured⟩ := guard_live h.few h.valid hlive
    rw [step_call hguardian hguard]
    exact hsecured address hmem
  induction actions using List.reverseRecOn with
  | nil =>
      refine ⟨[], [], rfl, List.not_mem_nil, hcall s h.live ?_⟩
      rcases h.callable with hself | hother
      · exact h.live _ hself
      · exact hother [] [] rfl
  | append_singleton actions action ih =>
      have hbefore : Tended network guarded threshold extendTo s actions := by
        refine ⟨h.few, h.valid, h.live, ?_, fun address hmem hash hup =>
          h.kept address hmem hash (by simp [hup]), ?_⟩
        · intro before middle after hsplit
          exact h.often before middle (after ++ [action]) (by rw [hsplit, List.append_assoc])
        · refine h.callable.imp_right ?_
          intro hother before after hsplit
          refine hother before (after ++ [action]) ?_
          rw [← List.cons_append, hsplit, List.append_assoc, List.cons_append]
      obtain ⟨early, late, hsplit, hnone, hsecured⟩ := ih hbefore
      have hsoon : closings late < threshold := by
        by_contra hlong
        refine hnone (h.often early late [action] ?_ (not_lt.mp hlong))
        rw [hsplit]
      have hlive := fun address hmem => (hsecured address hmem).live hsoon
      by_cases hours : action = guarded.call threshold extendTo
      · refine ⟨actions ++ [action], [], (List.append_nil _).symm, List.not_mem_nil, ?_⟩
        rw [← List.cons_append, Machine.run_append, hours]
        refine hcall _ hlive ?_
        rcases h.callable with hself | hother
        · exact hlive _ hself
        · exact hother (guarded.call threshold extendTo :: actions) []
            (by rw [hours, List.cons_append])
      · refine ⟨early, late ++ [action], by rw [hsplit, List.append_assoc], ?_, ?_⟩
        · rw [List.mem_append, List.mem_singleton, not_or]
          exact ⟨hnone, fun heq => hours heq.symm⟩
        · intro address hmem
          rw [← List.cons_append, Machine.run_append, closings_append]
          refine (hsecured address hmem).step ?_
          rintro hash rfl
          exact h.kept address hmem hash (by simp)

/-- After any actions no entry has more left than the network allows, and further actions leave none
with less than it would have had anyway. Contracts that a job has extended from then on are never
archived while it makes its call in every stretch of `threshold` ledgers, and the next call succeeds
and applies the capped extension to each of them. -/
theorem guarded_contracts_last (network : Network) (before : List Action) :
    let s := (system network).run .genesis before
    (∀ key, ∀ left ∈ s.ttl key, left ≤ network.maxTtl) ∧
    (∀ actions key, ∀ left ∈ s.ttl key,
      ∃ left' ∈ ((system network).run s actions).ttl key, left ≤ left' + closings actions) ∧
    ∀ guarded threshold extendTo actions, Tended network guarded threshold extendTo s actions →
      let last := (system network).run s (guarded.call threshold extendTo :: actions)
      (∀ address ∈ guarded.contracts, last.live address = true) ∧
      ∃ next, last.guard network guarded threshold extendTo =
        .ok (guarded.contracts.map fun _ => min extendTo network.maxTtl, next) := by
  intro s
  have hlimited : Ledger.Limited network s.leases := by
    refine Machine.invariant_run (I := fun s : Ledger => Ledger.Limited network s.leases)
      (fun s action hlimited _ => hlimited.step action) ?_
        (Machine.along_of_forall (fun _ _ => trivial) _ before)
    intro key left hleft
    cases hleft
  refine ⟨hlimited, ?_, ?_⟩
  · intro actions key left hleft
    obtain ⟨left', hleft', hle⟩ := ttl_run network actions s key _ (Option.mem_map_of_mem _ hleft)
    exact ⟨left', hleft', by omega⟩
  · intro guarded threshold extendTo actions h last
    obtain ⟨early, late, hsplit, hnone, hsecured⟩ := secured_run h
    have hsoon : closings late < threshold := by
      by_contra hlong
      refine hnone (h.often early late [] ?_ (not_lt.mp hlong))
      rw [hsplit, List.append_nil]
    have hlive : ∀ address ∈ guarded.contracts, last.live address = true :=
      fun address hmem => (hsecured address hmem).live hsoon
    obtain ⟨next, hnext, -⟩ := guard_live h.few h.valid hlive
    exact ⟨hlive, next, hnext⟩

/-- Whether a job's calls come often enough can be seen from the stretches of a run. -/
theorem often_iff {actions : List Action} {call : Action} :
    (∀ before middle after, actions = before ++ middle ++ after → threshold ≤ closings middle →
      call ∈ middle) ↔
      ∀ middle ∈ actions.tails.flatMap List.inits, threshold ≤ closings middle → call ∈ middle := by
  constructor
  · intro hall middle hmem
    obtain ⟨tail, htail, hinit⟩ := List.mem_flatMap.mp hmem
    obtain ⟨before, rfl⟩ := (List.mem_tails _ _).mp htail
    obtain ⟨after, rfl⟩ := (List.mem_inits _ _).mp hinit
    exact hall before middle after (List.append_assoc _ _ _).symm
  · rintro hall before middle after rfl
    refine hall middle (List.mem_flatMap.mpr ⟨middle ++ after, ?_, ?_⟩)
    · exact (List.mem_tails _ _).mpr ⟨before, (List.append_assoc _ _ _).symm⟩
    · exact (List.mem_inits _ _).mpr ⟨after, rfl⟩

/-- A guardian that guards itself and another contract with its code, called every forty-nine
ledgers: both are there after two hundred ledgers, with entries that began with a hundred. -/
theorem guarded_contracts_last_tended :
    let network : Network := ⟨⟨9⟩, 100, 1000, by decide⟩
    let before : List Action := [.deploy ⟨9⟩ none, .deploy ⟨1⟩ (some ⟨0xab⟩), .close 53]
    let call : Action := .extendMany [⟨9⟩, ⟨1⟩] 50 90
    let last := (system network).run ((system network).run .genesis before)
      [call, .close 49, call, .close 49, call, .close 49]
    last.live ⟨9⟩ = true ∧ last.live ⟨1⟩ = true := by
  intro network before call last
  have htended : Tended network (.several [⟨9⟩, ⟨1⟩]) 50 90 ((system network).run .genesis before)
      [.close 49, call, .close 49, call, .close 49] := by
    refine ⟨by decide, by decide, by decide +kernel, often_iff.mpr (by decide +kernel),
      by simp [call], .inl ?_⟩
    exact List.mem_cons_self
  have hlive := ((guarded_contracts_last network before).2.2 _ _ _ _ htended).1
  exact ⟨hlive ⟨9⟩ List.mem_cons_self, hlive ⟨1⟩ (List.mem_cons_of_mem _ List.mem_cons_self)⟩

end SoroCron.TtlGuardian
