import Mathlib.Data.List.TakeWhile
import SoroCron.KeeperBot.Endpoints

/-! # The keeper's loop over its endpoints

Each iteration probes the endpoints, chooses one, moves the clients to it if they are connected
to another one, and works through the tick. A failure anywhere on the way is recorded for the
endpoint the clients are connected to at that time.
-/

namespace SoroCron.KeeperBot

/-- What an iteration of the loop meets. -/
structure Iteration where
  answers : String → Option ℤ
  /-- Connecting to a newly chosen endpoint works. -/
  connects : Bool
  /-- Loading the index through it works. -/
  loads : Bool
  /-- The rest of the tick works. -/
  works : Bool

/-- The endpoints, and the one that the clients talk to. -/
structure MainLoop where
  endpoints : Endpoints
  connected : String
  known : connected ∈ endpoints.urls

namespace MainLoop

def failover (endpoints : Endpoints) : Bool := 1 < endpoints.all.length

/-- Probes the endpoints and chooses one, if there are several. -/
def select (endpoints : Endpoints) (answers : String → Option ℤ) : Endpoints :=
  if failover endpoints then (probeEndpoints endpoints answers).choose.1 else endpoints

theorem select_urls (endpoints : Endpoints) (answers : String → Option ℤ) :
    (select endpoints answers).urls = endpoints.urls := by
  unfold select
  split
  · rw [Endpoints.urls, (Endpoints.choose_fst _).1]
    exact probeEndpoints_urls endpoints answers
  · rfl

/-- The loop is reached once connecting to the first choice has worked. -/
def start (urls : List String) (answers : String → Option ℤ) : Except String MainLoop := do
  let endpoints := select (← Endpoints.new urls) answers
  return { endpoints, connected := endpoints.active, known := endpoints.active_mem }

/-- The endpoints as they are when an iteration turns to one of them. -/
def selected (loop : MainLoop) (iteration : Iteration) : Endpoints :=
  select loop.endpoints iteration.answers

def recordSuccess (loop : MainLoop) : MainLoop :=
  { loop with
    endpoints := loop.endpoints.recordSuccess loop.connected
    known := by simpa [Endpoints.recordSuccess] using loop.known }

def recordFailure (loop : MainLoop) : MainLoop :=
  { loop with
    endpoints := loop.endpoints.recordFailure loop.connected
    known := by simpa [Endpoints.recordFailure] using loop.known }

/-- The tick, once the clients are connected to the chosen endpoint. -/
def work (loop : MainLoop) (iteration : Iteration) : MainLoop × Bool :=
  if iteration.works then (loop.recordSuccess, true) else (loop, false)

/-- The body of the loop, up to where it throws. -/
def attempt (loop : MainLoop) (iteration : Iteration) : MainLoop × Bool :=
  let chosen : MainLoop :=
    { endpoints := loop.selected iteration
      connected := loop.connected
      known := (select_urls _ _).symm ▸ loop.known }
  if failover loop.endpoints ∧ chosen.endpoints.active ≠ chosen.connected then
    if iteration.connects then
      let moved : MainLoop :=
        { chosen with connected := chosen.endpoints.active, known := chosen.endpoints.active_mem }
      if iteration.loads then moved.work iteration else (moved, false)
    else
      (chosen, false)
  else
    chosen.work iteration

def step (loop : MainLoop) (iteration : Iteration) : MainLoop :=
  match loop.attempt iteration with
  | (loop, true) => loop
  | (loop, false) => loop.recordFailure

end MainLoop

/-- What an iteration shows of the endpoints: their answers, and which one it connected to or
worked through with what result. -/
structure Round where
  answers : String → Option ℤ
  used : String
  worked : Bool

def MainLoop.round (loop : MainLoop) (iteration : Iteration) : Round where
  answers := if failover loop.endpoints then iteration.answers else fun _ => none
  used := (loop.selected iteration).active
  worked := (loop.attempt iteration).2

def mainLoop : Machine MainLoop Iteration Round where
  step := MainLoop.step
  out loop iteration := [loop.round iteration]

namespace MainLoop

/-- The failure of an iteration is recorded for the endpoint that it used, and no other one. -/
def Attributed (loop : MainLoop) (iteration : Iteration) : Prop :=
  (loop.round iteration).worked = false →
    (loop.step iteration).endpoints =
      (loop.selected iteration).recordFailure (loop.round iteration).used

/-- No attempt to connect to a newly chosen endpoint fails. -/
def Connects (loop : MainLoop) (iteration : Iteration) : Prop :=
  failover loop.endpoints = true → (loop.selected iteration).active ≠ loop.connected →
    iteration.connects = true

instance (loop : MainLoop) (iteration : Iteration) : Decidable (loop.Connects iteration) :=
  inferInstanceAs (Decidable (_ → _ → _))

/-! ## One iteration -/

theorem eq_active_of_single {endpoints : Endpoints} (hsingle : failover endpoints = false)
    {url : String} (hurl : url ∈ endpoints.urls) : url = endpoints.active := by
  have hlt : endpoints.urls.length ≤ 1 := by
    rw [Endpoints.urls, List.length_map]
    simpa [failover] using hsingle
  have hactive := endpoints.active_mem
  match hurls : endpoints.urls, hlt with
  | [], _ =>
      rw [hurls] at hurl
      cases hurl
  | [one], _ =>
      rw [hurls] at hurl hactive
      rw [List.mem_singleton.mp hurl, List.mem_singleton.mp hactive]

theorem round_used_of_single {loop : MainLoop} (hsingle : failover loop.endpoints = false)
    (iteration : Iteration) : (loop.round iteration).used = loop.endpoints.active := by
  simp only [round, selected, select, hsingle, Bool.false_eq_true, if_false]

/-- Unless connecting fails, the clients are connected to the chosen endpoint from then on. -/
theorem step_endpoints {loop : MainLoop} {iteration : Iteration}
    (hconnects : loop.Connects iteration) : (loop.step iteration).endpoints =
      if (loop.round iteration).worked then
        (loop.selected iteration).recordSuccess (loop.selected iteration).active
      else (loop.selected iteration).recordFailure (loop.selected iteration).active := by
  unfold step round attempt work
  by_cases hmoves : failover loop.endpoints = true ∧ (loop.selected iteration).active ≠
    loop.connected
  · rw [if_pos hmoves, if_pos (hconnects hmoves.1 hmoves.2)]
    cases iteration.loads <;> cases iteration.works <;> rfl
  · have hconnected : loop.connected = (loop.selected iteration).active := by
      cases hfailover : failover loop.endpoints with
      | true => exact (not_not.mp fun hne => hmoves ⟨hfailover, hne⟩).symm
      | false =>
          exact (eq_active_of_single hfailover loop.known).trans
            (round_used_of_single hfailover iteration).symm
    rw [if_neg hmoves]
    simp only [hconnected]
    cases iteration.works <;> rfl

/-- A failed attempt to connect counts against the endpoint that is left. -/
theorem step_of_not_connects {loop : MainLoop} {iteration : Iteration}
    (hrefused : ¬loop.Connects iteration) :
    (loop.round iteration).worked = false ∧ (loop.selected iteration).active ≠ loop.connected ∧
      (loop.step iteration).endpoints = (loop.selected iteration).recordFailure loop.connected := by
  unfold Connects at hrefused
  push Not at hrefused
  obtain ⟨hfailover, hmoves, hrefused⟩ := hrefused
  have hattempt : loop.attempt iteration =
      ({ endpoints := loop.selected iteration
         connected := loop.connected
         known := (select_urls _ _).symm ▸ loop.known }, false) := by
    unfold attempt
    rw [if_pos ⟨hfailover, hmoves⟩, if_neg hrefused]
  unfold step round
  rw [hattempt]
  exact ⟨rfl, hmoves, rfl⟩

end MainLoop

namespace Endpoints

theorem recordFailure_inj {endpoints : Endpoints} {first second : String}
    (hfirst : first ∈ endpoints.urls)
    (heq : endpoints.recordFailure first = endpoints.recordFailure second) : first = second := by
  obtain ⟨status, hstatus, rfl⟩ := List.mem_map.mp hfirst
  have hall := congrArg Endpoints.all heq
  rw [recordFailure, recordFailure, update_all, update_all, List.map_inj_left] at hall
  have hfailures := congrArg EndpointStatus.failures (hall status hstatus)
  rw [if_pos rfl] at hfailures
  by_contra hne
  rw [if_neg hne] at hfailures
  exact Nat.succ_ne_self _ hfailures

end Endpoints

namespace MainLoop

theorem attributed_iff {loop : MainLoop} {iteration : Iteration} :
    loop.Attributed iteration ↔ loop.Connects iteration := by
  constructor
  · intro hattributed
    by_contra hrefused
    obtain ⟨hfailed, hmoves, hstep⟩ := step_of_not_connects hrefused
    exact hmoves (Endpoints.recordFailure_inj (Endpoints.active_mem _)
      ((hattributed hfailed).symm.trans hstep))
  · intro hconnects hfailed
    rw [step_endpoints hconnects, if_neg (by simp [hfailed])]
    rfl

end MainLoop

/-! ## One endpoint in one iteration -/

namespace EndpointStatus

/-- The record after the probes of an iteration, if it makes any. -/
def heard (status : EndpointStatus) (endpoints : Endpoints) (round : Round) : EndpointStatus :=
  if MainLoop.failover endpoints then
    status.probed endpoints.options.recoverAfter (status.url = endpoints.active)
      (round.answers status.url)
  else status

/-- The record after the iteration. -/
def used (status : EndpointStatus) (round : Round) : EndpointStatus :=
  if status.url = round.used then (if round.worked then status.succeeded else status.failed)
    else status

@[simp] theorem heard_url (status : EndpointStatus) (endpoints : Endpoints) (round : Round) :
    (status.heard endpoints round).url = status.url := by
  unfold heard
  split
  · exact status.probed_url _ _ _
  · rfl

@[simp] theorem used_url (status : EndpointStatus) (round : Round) :
    (status.used round).url = status.url := by
  unfold used
  split
  · split <;> rfl
  · rfl

end EndpointStatus

namespace MainLoop

theorem selected_all (loop : MainLoop) (iteration : Iteration) :
    (loop.selected iteration).all =
      loop.endpoints.all.map fun status => status.heard loop.endpoints (loop.round iteration) := by
  unfold selected select EndpointStatus.heard round
  split
  · rw [(Endpoints.choose_fst _).1, probeEndpoints_all]
  · rw [List.map_id']

theorem selected_options (loop : MainLoop) (iteration : Iteration) :
    (loop.selected iteration).options = loop.endpoints.options := by
  unfold selected select
  split
  · rw [(Endpoints.choose_fst _).2, probeEndpoints_options]
  · rfl

theorem step_all {loop : MainLoop} {iteration : Iteration} (hconnects : loop.Connects iteration) :
    (loop.step iteration).endpoints.all =
      (loop.selected iteration).all.map fun status => status.used (loop.round iteration) := by
  rw [step_endpoints hconnects]
  unfold EndpointStatus.used
  split
  · rfl
  · rfl

theorem step_options {loop : MainLoop} {iteration : Iteration}
    (hconnects : loop.Connects iteration) :
    (loop.step iteration).endpoints.options = loop.endpoints.options := by
  rw [step_endpoints hconnects]
  split <;> exact selected_options loop iteration

end MainLoop

/-! ## Failures since an endpoint worked -/

/-- No use of the endpoint has failed since it last worked. -/
def Unfailed (rounds : List Round) (url : String) : Prop :=
  ∀ early round late, rounds = early ++ round :: late → round.used = url → round.worked = false →
    ∃ later ∈ late, later.used = url ∧ later.worked = true

theorem Unfailed.last {rounds : List Round} {round : Round} {url : String}
    (h : Unfailed (rounds ++ [round]) url) :
    (round.used = url → round.worked = true) ∧ (round.used ≠ url → Unfailed rounds url) := by
  constructor
  · intro hused
    by_contra hfailed
    obtain ⟨_, hmem, -⟩ := h rounds round [] rfl hused (Bool.not_eq_true _ ▸ hfailed)
    cases hmem
  · rintro hother early failing late rfl hused hfailed
    obtain ⟨later, hmem, hlater, hworked⟩ :=
      h early failing (late ++ [round]) (by simp) hused hfailed
    rcases List.mem_append.mp hmem with hlate | hlast
    · exact ⟨later, hlate, hlater, hworked⟩
    · cases List.mem_singleton.mp hlast
      exact absurd hlater hother

namespace EndpointStatus

theorem heard_failures_of_eq_zero {status : EndpointStatus} (hzero : status.failures = 0)
    (endpoints : Endpoints) (round : Round) : (status.heard endpoints round).failures = 0 := by
  unfold heard probed
  split
  · split
    · exact hzero
    · simp [hzero]
  · exact hzero

end EndpointStatus

/-- An endpoint on which nothing has failed since it worked has a clean record. -/
def CleanRecords (rounds : List Round) (loop : MainLoop) : Prop :=
  ∀ status ∈ loop.endpoints.all, Unfailed rounds status.url → status.failures = 0

theorem cleanRecords_step {rounds : List Round} {loop : MainLoop} {iteration : Iteration}
    (hclean : CleanRecords rounds loop) (hconnects : loop.Connects iteration) :
    CleanRecords (rounds ++ mainLoop.out loop iteration) (mainLoop.step loop iteration) := by
  change CleanRecords (rounds ++ [loop.round iteration]) (loop.step iteration)
  intro after hafter hunfailed
  rw [MainLoop.step_all hconnects, MainLoop.selected_all, List.map_map] at hafter
  obtain ⟨status, hstatus, rfl⟩ := List.mem_map.mp hafter
  simp only [Function.comp_apply, EndpointStatus.used_url, EndpointStatus.heard_url] at hunfailed ⊢
  obtain ⟨hworked, hbefore⟩ := hunfailed.last
  unfold EndpointStatus.used
  rw [EndpointStatus.heard_url]
  split
  next hused =>
    rw [if_pos (hworked hused.symm)]
    rfl
  next hother =>
    have hzero := hclean status hstatus (hbefore (Ne.symm hother))
    exact EndpointStatus.heard_failures_of_eq_zero hzero _ _

/-! ## Failures in a row -/

/-- The endpoint answered to enough probes in a row while it was not used. -/
def Recovered (recoverAfter : ℕ) (url : String) (rounds : List Round) : Prop :=
  ∃ early idle last late, rounds = early ++ idle ++ last :: late ∧ recoverAfter ≤ idle.length + 1 ∧
    (∀ round ∈ idle, (round.answers url).isSome ∧ round.used ≠ url) ∧ (last.answers url).isSome

def failedUses (url : String) (rounds : List Round) : ℕ :=
  rounds.countP fun round => round.used = url && !round.worked

/-- For how many rounds up to now the endpoint has answered without being used. -/
def resting (url : String) (rounds : List Round) : ℕ :=
  (rounds.reverse.takeWhile fun round => (round.answers url).isSome && round.used ≠ url).length

theorem Recovered.append {recoverAfter : ℕ} {url : String} {rounds : List Round}
    (h : Recovered recoverAfter url rounds) (round : Round) :
    Recovered recoverAfter url (rounds ++ [round]) := by
  obtain ⟨early, idle, last, late, rfl, hlong, hidle, hlast⟩ := h
  exact ⟨early, idle, last, late ++ [round], by simp, hlong, hidle, hlast⟩

theorem resting_append (url : String) (rounds : List Round) (round : Round) :
    resting url (rounds ++ [round]) =
      if (round.answers url).isSome ∧ round.used ≠ url then resting url rounds + 1 else 0 := by
  unfold resting
  rw [List.reverse_append, List.reverse_singleton, List.singleton_append, List.takeWhile_cons]
  by_cases hidle : (round.answers url).isSome ∧ round.used ≠ url
  · rw [if_pos hidle, if_pos (by simpa using hidle), List.length_cons]
  · rw [if_neg hidle, if_neg (by simpa using hidle), List.length_nil]

theorem recovered_of_resting {recoverAfter : ℕ} {url : String} {rounds : List Round} {round : Round}
    (hlong : recoverAfter ≤ resting url rounds + 1) (hanswered : (round.answers url).isSome) :
    Recovered recoverAfter url (rounds ++ [round]) := by
  have hsplit := List.takeWhile_append_dropWhile
    (p := fun round : Round => (round.answers url).isSome && round.used ≠ url) (l := rounds.reverse)
  have hturns := congrArg List.reverse hsplit
  rw [List.reverse_append, List.reverse_reverse] at hturns
  refine ⟨_, _, round, [], congrArg (· ++ [round]) hturns.symm, ?_, ?_, hanswered⟩
  · rwa [List.length_reverse]
  · intro idle hidle
    simpa using List.mem_takeWhile_imp (List.mem_reverse.mp hidle)

/-- What the record of an endpoint that only failed since some moment shows, unless it has
recovered. -/
def Marked (rounds : List Round) (endpoints : Endpoints) (status : EndpointStatus) : Prop :=
  (∀ round ∈ rounds, round.used = status.url → round.worked = false) →
    ¬Recovered endpoints.options.recoverAfter status.url rounds →
    failedUses status.url rounds ≤ status.failures ∧
      (0 < failedUses status.url rounds → status.okProbes ≤ resting status.url rounds)

theorem failedUses_append (url : String) (rounds : List Round) (round : Round) :
    failedUses url (rounds ++ [round]) =
      failedUses url rounds + if round.used = url ∧ round.worked = false then 1 else 0 := by
  unfold failedUses
  rw [List.countP_append, List.countP_singleton]
  simp

/-- A probe clears the record only after enough answers since the last failure. -/
theorem Marked.heard {rounds : List Round} {loop : MainLoop} {status : EndpointStatus}
    {iteration : Iteration} (h : Marked rounds loop.endpoints status)
    (honly : ∀ round ∈ rounds, round.used = status.url → round.worked = false)
    (hnot : ¬Recovered loop.endpoints.options.recoverAfter status.url
      (rounds ++ [loop.round iteration])) :
    failedUses status.url rounds ≤ (status.heard loop.endpoints (loop.round iteration)).failures ∧
      (MainLoop.failover loop.endpoints = true → 0 < failedUses status.url rounds →
        (status.heard loop.endpoints (loop.round iteration)).okProbes ≤
          if ((loop.round iteration).answers status.url).isSome then resting status.url rounds + 1
            else 0) := by
  obtain ⟨hfailures, hprobes⟩ := h honly fun hrecovered => hnot (hrecovered.append _)
  unfold EndpointStatus.heard EndpointStatus.probed
  split
  next hfailover =>
    cases hanswer : (loop.round iteration).answers status.url with
    | none => exact ⟨hfailures, fun _ _ => Nat.le_refl 0⟩
    | some ledger =>
        refine ⟨?_, fun _ hfailed => Nat.succ_le_succ (hprobes hfailed)⟩
        dsimp only
        split
        next hcleared =>
          rw [Nat.le_zero]
          by_contra hfailed
          have hresting := hprobes (Nat.pos_of_ne_zero hfailed)
          exact hnot (recovered_of_resting (hcleared.2.trans (Nat.succ_le_succ hresting))
            (by simp [hanswer]))
        next => exact hfailures
  next hsingle => exact ⟨hfailures, fun hfailover => absurd hfailover hsingle⟩

theorem marked_step {rounds : List Round} {loop : MainLoop} {iteration : Iteration}
    (hmarked : ∀ status ∈ loop.endpoints.all, Marked rounds loop.endpoints status)
    (hconnects : loop.Connects iteration) :
    ∀ status ∈ (loop.step iteration).endpoints.all,
      Marked (rounds ++ [loop.round iteration]) (loop.step iteration).endpoints status := by
  intro after hafter
  rw [MainLoop.step_all hconnects, MainLoop.selected_all, List.map_map] at hafter
  obtain ⟨status, hstatus, rfl⟩ := List.mem_map.mp hafter
  unfold Marked
  simp only [Function.comp_apply, EndpointStatus.used_url, EndpointStatus.heard_url,
    MainLoop.step_options hconnects]
  intro honly hnot
  have hbefore : ∀ round ∈ rounds, round.used = status.url → round.worked = false :=
    fun round hmem => honly round (List.mem_append_left _ hmem)
  obtain ⟨hfailures, hprobes⟩ := (hmarked status hstatus).heard hbefore hnot
  rw [failedUses_append, resting_append, EndpointStatus.used, EndpointStatus.heard_url]
  by_cases hused : status.url = (loop.round iteration).used
  · have hfailed : (loop.round iteration).worked = false :=
      honly _ (List.mem_append_right _ List.mem_cons_self) hused.symm
    have hnotWorked : ¬(loop.round iteration).worked = true := by simp [hfailed]
    rw [if_pos hused, if_neg hnotWorked, if_pos ⟨hused.symm, hfailed⟩]
    exact ⟨Nat.succ_le_succ hfailures, fun _ => Nat.zero_le _⟩
  · have hfailover : MainLoop.failover loop.endpoints = true := by
      by_contra hsingle
      rw [Bool.not_eq_true] at hsingle
      apply hused
      rw [MainLoop.round_used_of_single hsingle]
      exact MainLoop.eq_active_of_single hsingle (List.mem_map_of_mem hstatus)
    rw [if_neg hused, if_neg (fun hfailed => hused hfailed.1.symm), Nat.add_zero]
    refine ⟨hfailures, fun hfailed => (hprobes hfailover hfailed).trans ?_⟩
    simp only [ne_eq, Ne.symm hused, not_false_eq_true, and_true, le_refl]

/-! ## What the keeper can rely on -/

/-- An endpoint that is up and does not trail is healthy while no use of it fails. -/
def Dependable (rounds : List Round) (endpoints : Endpoints) : Prop :=
  ∀ status ∈ endpoints.all, status.up = true → endpoints.WithinLag status →
    Unfailed rounds status.url →
    endpoints.healthy status = true

/-- The first healthy endpoint is in use. -/
def UsesFirst (endpoints : Endpoints) : Prop :=
  ∀ status, endpoints.all.find? endpoints.healthy = some status → endpoints.active = status.url

/-- Where all uses during `rounds` failed, and enough of them, an endpoint that has not recovered
by now is not in use while another one is healthy. -/
def AvoidsFailing (rounds : List Round) (now : Round) (endpoints : Endpoints) : Prop :=
  ∀ url, endpoints.options.maxFailures ≤ failedUses url rounds →
    (∀ round ∈ rounds, round.used = url → round.worked = false) →
    ¬Recovered endpoints.options.recoverAfter url (rounds ++ [now]) →
    ∀ other ∈ endpoints.all, other.url ≠ url → endpoints.healthy other = true →
      endpoints.active ≠ url

theorem dependable_of_zero {rounds : List Round} {endpoints : Endpoints}
    (hsome : 0 < endpoints.options.maxFailures)
    (hzero : ∀ status ∈ endpoints.all, Unfailed rounds status.url → status.failures = 0) :
    Dependable rounds endpoints := by
  intro status hstatus hup hwithin hunfailed
  refine Endpoints.healthy_iff.mpr ⟨hup, ?_, hwithin⟩
  rw [hzero status hstatus hunfailed]
  exact hsome

namespace MainLoop

theorem selected_usesFirst (loop : MainLoop) (iteration : Iteration) :
    UsesFirst (loop.selected iteration) := by
  intro status hfirst
  cases hfailover : failover loop.endpoints with
  | true =>
      rw [selected, select, if_pos hfailover] at hfirst ⊢
      have hhealthy : (probeEndpoints loop.endpoints iteration.answers).choose.1.healthy =
          (probeEndpoints loop.endpoints iteration.answers).healthy := by
        obtain ⟨hall, hoptions⟩ := (probeEndpoints loop.endpoints iteration.answers).choose_fst
        funext status
        unfold Endpoints.healthy Endpoints.ahead
        rw [hall, hoptions]
      rw [hhealthy, (Endpoints.choose_fst _).1] at hfirst
      exact Endpoints.choose_first hfirst
  | false =>
      rw [selected, select, if_neg (by simp [hfailover])] at hfirst ⊢
      exact (eq_active_of_single hfailover
        (List.mem_map_of_mem (List.mem_of_find?_eq_some hfirst))).symm

theorem selected_dependable {rounds : List Round} {loop : MainLoop}
    (hclean : CleanRecords rounds loop)
    (hsome : 0 < loop.endpoints.options.maxFailures) (iteration : Iteration) :
    Dependable rounds (loop.selected iteration) := by
  apply dependable_of_zero (by rwa [selected_options])
  intro after hafter hunfailed
  rw [selected_all] at hafter
  obtain ⟨status, hstatus, rfl⟩ := List.mem_map.mp hafter
  rw [EndpointStatus.heard_url] at hunfailed
  exact EndpointStatus.heard_failures_of_eq_zero (hclean status hstatus hunfailed) _ _

theorem selected_avoidsFailing {rounds : List Round} {loop : MainLoop}
    (hmarked : ∀ status ∈ loop.endpoints.all, Marked rounds loop.endpoints status)
    (iteration : Iteration) :
    AvoidsFailing rounds (loop.round iteration) (loop.selected iteration) := by
  intro url hmany honly hnot other hother hne hhealthy hactive
  rw [selected_options] at hmany hnot
  cases hfirst : (loop.selected iteration).all.find? (loop.selected iteration).healthy with
  | none => exact List.find?_eq_none.mp hfirst other hother hhealthy
  | some first =>
      have hused := selected_usesFirst loop iteration first hfirst
      have hworking := List.find?_some hfirst
      have hmem := List.mem_of_find?_eq_some hfirst
      rw [selected_all] at hmem
      obtain ⟨status, hstatus, rfl⟩ := List.mem_map.mp hmem
      rw [EndpointStatus.heard_url] at hused
      obtain rfl : status.url = url := hused.symm.trans hactive
      have hfailures := ((hmarked status hstatus).heard honly hnot).1
      obtain ⟨-, hfew, -⟩ := Endpoints.healthy_iff.mp hworking
      rw [selected_options] at hfew
      omega

theorem start_fresh {urls : List String} {answers : String → Option ℤ} {loop : MainLoop}
    (hstart : start urls answers = .ok loop) :
    loop.endpoints.options = {} ∧ ∀ status ∈ loop.endpoints.all, status.failures = 0 := by
  unfold start at hstart
  cases hnew : Endpoints.new urls with
  | error message =>
      rw [hnew] at hstart
      cases hstart
  | ok endpoints =>
      rw [hnew] at hstart
      cases hstart
      have hfresh : endpoints.options = {} ∧ ∀ status ∈ endpoints.all, status.failures = 0 := by
        unfold Endpoints.new at hnew
        split at hnew
        · cases hnew
        · cases hnew
          refine ⟨rfl, ?_⟩
          intro status hstatus
          obtain ⟨url, -, rfl⟩ := List.mem_map.mp hstatus
          rfl
      -- The first choice is made as in an iteration.
      let before : MainLoop :=
        { endpoints, connected := endpoints.active, known := endpoints.active_mem }
      let first : Iteration := { answers, connects := true, loads := true, works := true }
      refine ⟨(before.selected_options first).trans hfresh.1, ?_⟩
      intro after hafter
      have hall : (select endpoints answers).all = _ := before.selected_all first
      rw [hall] at hafter
      obtain ⟨status, hstatus, rfl⟩ := List.mem_map.mp hafter
      exact EndpointStatus.heard_failures_of_eq_zero (hfresh.2 status hstatus) _ _

theorem run_options {loop : MainLoop} {iterations : List Iteration}
    (halong : mainLoop.Along Connects loop iterations) :
    (mainLoop.run loop iterations).endpoints.options = loop.endpoints.options :=
  mainLoop.invariant_run (I := fun now => now.endpoints.options = loop.endpoints.options)
    (fun _ _ hsame hconnects => (step_options hconnects).trans hsame) rfl halong

/-- Every failure counts against the endpoint that failed exactly if no attempt to connect to a
newly chosen endpoint fails; then the keeper relies on endpoints as it should. -/
theorem failures_attributed {urls : List String} {answers : String → Option ℤ} {loop : MainLoop}
    (hstart : start urls answers = .ok loop) (iterations : List Iteration) :
    ((∀ before iteration after, iterations = before ++ iteration :: after →
        (mainLoop.run loop before).Attributed iteration) ↔
      mainLoop.Along Connects loop iterations) ∧
    (mainLoop.Along Connects loop iterations →
      Dependable (mainLoop.outputs loop iterations) (mainLoop.run loop iterations).endpoints ∧
      ∀ next : Iteration,
        Dependable (mainLoop.outputs loop iterations)
          ((mainLoop.run loop iterations).selected next) ∧
        UsesFirst ((mainLoop.run loop iterations).selected next) ∧
        ∀ past stretch, iterations = past ++ stretch →
          AvoidsFailing (mainLoop.outputs (mainLoop.run loop past) stretch)
            ((mainLoop.run loop iterations).round next)
              ((mainLoop.run loop iterations).selected next)) := by
  obtain ⟨hoptions, hzero⟩ := start_fresh hstart
  refine ⟨?_, fun halong => ?_⟩
  · rw [Machine.along_iff]
    simp only [attributed_iff]
  · have hclean : CleanRecords (mainLoop.outputs loop iterations) (mainLoop.run loop iterations) :=
      mainLoop.history_run (fun _ _ _ => cleanRecords_step) []
        (fun status hstatus _ => hzero status hstatus) halong
    have hsome : 0 < (mainLoop.run loop iterations).endpoints.options.maxFailures := by
      rw [run_options halong, hoptions]
      exact Nat.succ_pos 2
    refine ⟨dependable_of_zero hsome hclean, fun next => ⟨selected_dependable hclean hsome next,
      selected_usesFirst _ next, ?_⟩⟩
    rintro past stretch rfl
    have hmarked := mainLoop.history_run
      (J := fun rounds now => ∀ status ∈ now.endpoints.all, Marked rounds now.endpoints status)
      (fun _ _ _ => marked_step) []
      (fun status _ _ _ => ⟨Nat.zero_le _, fun hpos => absurd hpos (Nat.lt_irrefl 0)⟩)
      (Machine.along_append.mp halong).2
    rw [Machine.run_append]
    exact selected_avoidsFailing hmarked next

/-- Both endpoints answer and everything works. -/
def fine : Iteration where
  answers _ := some 100
  connects := true
  loads := true
  works := true

/-- The first endpoint does not answer, and the second does but connecting to it fails. -/
def unreachable : Iteration where
  answers url := if url = "one" then none else some 100
  connects := false
  loads := true
  works := true

theorem failures_attributed_fine : ∃ loop, start ["one", "two"] (fun _ => some 100) = .ok loop ∧
    (mainLoop.run loop [fine, { fine with works := false }]).Attributed { unreachable with
      connects := true } ∧
    UsesFirst ((mainLoop.run loop [fine, { fine with works := false }]).selected unreachable) := by
  have hstart : start ["one", "two"] (fun _ => some 100) = .ok _ := rfl
  refine ⟨_, hstart, ?_, ?_⟩
  · have hiff := (failures_attributed hstart
      [fine, { fine with works := false }, { unreachable with connects := true }]).1
    exact hiff.mpr (by decide +kernel) [fine, { fine with works := false }] _ [] rfl
  · have hreliable := (failures_attributed hstart [fine, { fine with works := false }]).2
      (by decide +kernel)
    exact (hreliable.2 unreachable).2.1

/-- Failing to connect to the second endpoint three times leaves the first one unhealthy when it
answers again, and the second one healthy. -/
theorem refusals_blamed : ∃ loop, start ["one", "two"] (fun _ => some 100) = .ok loop ∧
    (loop.round unreachable).used = "two" ∧ (loop.round unreachable).worked = false ∧
    ¬loop.Attributed unreachable ∧
    (∀ round ∈ mainLoop.outputs loop [unreachable, unreachable, unreachable], round.used = "two") ∧
    ((mainLoop.run loop [unreachable, unreachable, unreachable]).selected fine).active = "two" ∧
    (((mainLoop.run loop [unreachable, unreachable, unreachable]).selected fine).all.map
      fun status =>
      (status.url, status.up, status.failures)) = [("one", true, 3), ("two", true, 0)] := by
  refine ⟨_, rfl, ?_, ?_, ?_, ?_, ?_, ?_⟩
  · decide +kernel
  · decide +kernel
  · rw [attributed_iff]
    decide +kernel
  · decide +kernel
  · decide +kernel
  · decide +kernel

end MainLoop

end SoroCron.KeeperBot
