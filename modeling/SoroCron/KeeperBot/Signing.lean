import SoroCron.KeeperBot.Isolating
import SoroCron.Sdk.Auth

/-! # What the TypeScript keeper signs

Every transaction of the keeper was simulated by the client, which checks what the simulation
recorded before it hands the transaction out; a rebuilt transaction is simulated and checked
again.
-/

namespace SoroCron.KeeperBot

open Sdk

/-! ## The client -/

/-- What the simulation of a call comes to. -/
inductive SimulationAnswer where
  | threw (err : ClientError)
  | restore (minResourceFee : ℕ)
  | simulated (result : Except ClientError (List Bool)) (resourceFee : ℤ)
      (auth : List AuthorizationEntry)

/-- The client's `prepare`: what it returns can be signed as it was simulated. -/
def Client.prepare (f : Formats) (contractId method : String) :
    SimulationAnswer → Simulation (List AuthorizationEntry)
  | .threw err => .error err
  | .restore minResourceFee => .error (.restoreRequired minResourceFee)
  | .simulated (.error err) _ _ => .error err
  | .simulated (.ok result) resourceFee auth =>
      if method = "execute" ∨ method = "execute_batch" then
        -- Keepers sign what simulation recorded, so never more than this call.
        match checkKeeperAuth f contractId method auth with
        | .ok () => .ok { result, resourceFee, view := auth }
        | .error _ => .error .unexpectedAuth
      else
        .ok { result, resourceFee, view := auth }

/-- Everything the server and the network answer while one batch is tried. -/
structure Network where
  inclusionFee : ℕ
  simulation : SimulationAnswer
  restore : Except ClientError Unit
  resimulation : SimulationAnswer
  send : Except SendError Unit
  rebuilt : SimulationAnswer
  resend : Except SendError Unit

namespace Network

def simulations (network : Network) : List SimulationAnswer :=
  [network.simulation, network.resimulation, network.rebuilt]

/-- The answers as the tick gets them from the client. -/
def answers (f : Formats) (contractId : String) (network : Network) :
    Answers (List AuthorizationEntry) where
  inclusionFee := network.inclusionFee
  simulation := Client.prepare f contractId "execute_batch" network.simulation
  restore := network.restore
  resimulation := Client.prepare f contractId "execute_batch" network.resimulation
  send := network.send
  rebuilt := Client.prepare f contractId "execute_batch" network.rebuilt
  resend := network.resend

end Network

/-- The tries of a tick get their answers through the client. -/
def SendAction.Through (f : Formats) (contractId : String) :
    SendAction (List AuthorizationEntry) → Prop
  | .turn next => ∃ network : Network, next.answers = network.answers f contractId
  | _ => True

/-! ## Checks -/

variable {f : Formats} {contractId : String} {deps : TickDeps} {batch : List DueJob}

theorem Client.prepare_eq_ok {answer : SimulationAnswer}
    {prepared : Prepared (List AuthorizationEntry)}
    (h : Client.prepare f contractId "execute_batch" answer = .ok prepared) :
    checkKeeperAuth f contractId "execute_batch" prepared.view = .ok () ∧
      answer = .simulated (.ok prepared.result) prepared.resourceFee prepared.view := by
  cases answer with
  | threw err => cases h
  | restore minResourceFee => cases h
  | simulated result resourceFee auth =>
      cases result with
      | error err => cases h
      | ok result =>
          rw [prepare, if_pos (.inr rfl)] at h
          split at h
          next hchecked =>
            cases h
            exact ⟨hchecked, rfl⟩
          next => cases h

/-- What is prepared comes from a simulation, the first one or the one after a restore. -/
theorem prepare_simulated {View : Type} {answers : Answers View} {summary : TickSummary}
    {prepared : Prepared View} (h : (prepare deps answers summary).1 = .ok prepared) :
    answers.simulation = .ok prepared ∨ answers.resimulation = .ok prepared := by
  unfold prepare at h
  split at h
  · split at h
    · cases h
    split at h
    · cases h
    split at h
    · cases h
    · exact .inr h
  · exact .inl h

theorem mem_sendCalls {View : Type} {answers : Answers View} {ids : List JobId}
    {prepared : Prepared View} {s : Submission View}
    (hmem : s ∈ (sendCalls answers ids prepared).filterMap ClientCall.submission?) :
    s.prepared = prepared ∨ answers.rebuilt = .ok s.prepared := by
  unfold sendCalls at hmem
  split at hmem
  · split at hmem
    next rebuilt hrebuilt =>
      rcases List.mem_cons.mp hmem with rfl | hlast
      · exact .inl rfl
      · obtain rfl := List.mem_singleton.mp hlast
        exact .inr hrebuilt
    next =>
      obtain rfl := List.mem_singleton.mp hmem
      exact .inl rfl
  · obtain rfl := List.mem_singleton.mp hmem
    exact .inl rfl

/-- What a try sends was simulated in the same try. -/
theorem submission_simulated {View : Type} {answers : Answers View} {s : Submission View}
    (hmem : s ∈ (tryCalls deps answers batch).filterMap ClientCall.submission?) :
    answers.simulation = .ok s.prepared ∨ answers.resimulation = .ok s.prepared ∨
      answers.rebuilt = .ok s.prepared := by
  unfold tryCalls at hmem
  rw [List.filterMap_append, submissions_prepareCalls, List.nil_append] at hmem
  split at hmem
  · cases hmem
  next prepared hprepared =>
    dsimp only at hmem
    split at hmem
    · cases hmem
    split at hmem
    · cases hmem
    split at hmem
    · cases hmem
    rcases mem_sendCalls hmem with hsame | hrebuilt
    · rw [hsame]
      exact (prepare_simulated hprepared).imp_right .inl
    · exact .inr (.inr hrebuilt)

/-- What a try sends is one of its simulations, as it was recorded and checked. -/
theorem submission_checked {network : Network} {s : Submission (List AuthorizationEntry)}
    (hmem : s ∈ (tryCalls deps (network.answers f contractId) batch).filterMap
      ClientCall.submission?) :
    checkKeeperAuth f contractId "execute_batch" s.prepared.view = .ok () ∧
      .simulated (.ok s.prepared.result) s.prepared.resourceFee s.prepared.view ∈
        network.simulations := by
  rcases submission_simulated hmem with hfirst | hsecond | hthird
  · obtain ⟨hchecked, hanswer⟩ := Client.prepare_eq_ok hfirst
    exact ⟨hchecked, List.mem_cons.mpr (.inl hanswer.symm)⟩
  · obtain ⟨hchecked, hanswer⟩ := Client.prepare_eq_ok hsecond
    exact ⟨hchecked, List.mem_cons_of_mem _ (List.mem_cons.mpr (.inl hanswer.symm))⟩
  · obtain ⟨hchecked, hanswer⟩ := Client.prepare_eq_ok hthird
    exact ⟨hchecked, List.mem_cons_of_mem _
      (List.mem_cons_of_mem _ (List.mem_singleton.mpr hanswer.symm))⟩

/-! ## Runs -/

/-- A try is answered as one of the turns says. -/
theorem tries_answers {View C : Type} {sending : Sending C} {actions : List (SendAction View)}
    {t : Try View} (ht : t ∈ (sendings View C deps).outputs sending actions) :
    ∃ turn, .turn turn ∈ actions ∧ t.answers = turn.answers := by
  induction actions generalizing sending with
  | nil => cases ht
  | cons action rest ih =>
      rcases List.mem_append.mp ht with hnow | hlater
      · cases action with
        | turn turn =>
            change t ∈ sending.tries deps (.turn turn) at hnow
            rw [Sending.tries] at hnow
            split at hnow
            · cases hqueue : sending.tick.queues[turn.queue]? with
              | none =>
                  rw [hqueue] at hnow
                  cases hnow
              | some queue =>
                  rw [hqueue] at hnow
                  cases queue with
                  | nil => cases hnow
                  | cons batch others =>
                      obtain rfl := List.mem_singleton.mp hnow
                      exact ⟨turn, List.mem_cons_self, rfl⟩
            · cases hnow
        | start queue => cases hnow
        | completes queue => cases hnow
        | finish queue => cases hnow
      · obtain ⟨turn, hturn, hanswers⟩ := ih hlater
        exact ⟨turn, List.mem_cons_of_mem action hturn, hanswers⟩

/-- In every sequence of ticks, whatever is sent was accepted by the check on its simulation. -/
theorem ticks_sign_checked {C : Type} {channels : List C} {quarantine : Option Quarantine}
    {ticks : List (List DueJob × List (SendAction (List AuthorizationEntry)))}
    (hthrough : ∀ tick ∈ ticks, ∀ action ∈ tick.2, action.Through f contractId)
    {t : Try (List AuthorizationEntry)}
    (ht : t ∈ (botTicks (List AuthorizationEntry) C deps channels).outputs quarantine ticks) :
    ∃ network : Network, t.answers = network.answers f contractId ∧ ∀ s ∈ t.submissions deps,
      checkKeeperAuth f contractId "execute_batch" s.prepared.view = .ok () ∧
        .simulated (.ok s.prepared.result) s.prepared.resourceFee s.prepared.view ∈
          network.simulations := by
  induction ticks generalizing quarantine with
  | nil => cases ht
  | cons tick rest ih =>
      rw [List.forall_mem_cons] at hthrough
      rcases List.mem_append.mp ht with hnow | hlater
      · obtain ⟨turn, hturn, hanswers⟩ := tries_answers hnow
        obtain ⟨network, hnetwork⟩ := hthrough.1 _ hturn
        refine ⟨network, hanswers.trans hnetwork, ?_⟩
        intro s hs
        rw [Try.submissions, Try.calls, hanswers, hnetwork] at hs
        exact submission_checked hs
      · exact ih hthrough.2 hlater

end SoroCron.KeeperBot
