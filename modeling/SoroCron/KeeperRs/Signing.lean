import SoroCron.KeeperRs.Isolating
import SoroCron.Sdk.Auth

/-! # What the Rust keeper signs

The Rust keeper checks the authorizations of a simulated batch before it looks at its jobs, and
signs that simulation only.
-/

namespace SoroCron.KeeperRs

open KeeperBot (Prepared Submission)

/-! ## The check -/

def describe (f : Formats) (invocation : AuthorizedInvocation) : String :=
  match invocation.function with
  | .contractFn contractAddress functionName _ =>
      f.rustName functionName ++ " on " ++
        match contractAddress with
        | .contract _ => f.strkey contractAddress
        | other => f.debug other
  | _ => "a contract deployment"

/-- Refuses any authorization beyond `registry.function(...)` itself. -/
def checkAuth (f : Formats) (registry : Digest) (function : String) :
    List AuthorizationEntry → Except String Unit
  | [] => .ok ()
  | entry :: rest =>
      let root := entry.rootInvocation
      let expected := match root.function with
        | .contractFn contractAddress functionName _ =>
            contractAddress = .contract registry && f.rustName functionName = function
        | _ => false
      if expected = false then
        .error ("refusing to sign: the call would also authorize " ++ describe f root)
      else
        match root.subInvocations with
        | inner :: _ =>
            .error ("refusing to sign: the call would also authorize " ++ describe f inner ++
              " inside " ++ function)
        | [] => checkAuth f registry function rest

variable {f : Formats} {registry : Digest} {function : String} {name : List UInt8}

theorem checkAuth_eq_ok (h : f.Identify registry function name)
    (entries : List AuthorizationEntry) :
    checkAuth f registry function entries = .ok () ↔ CallsOnly registry name entries := by
  induction entries with
  | nil => exact ⟨fun _ entry hmem => absurd hmem List.not_mem_nil, fun _ => rfl⟩
  | cons entry rest ih =>
      obtain ⟨root⟩ := entry
      obtain ⟨called, subInvocations⟩ := root
      rw [CallsOnly, List.forall_mem_cons]
      cases called with
      | contractFn contractAddress functionName args =>
          by_cases hcall : contractAddress = .contract registry ∧ functionName = name
          · obtain ⟨rfl, rfl⟩ := hcall
            have hname : f.rustName functionName = function := (h.rustName _).mpr rfl
            simp only [checkAuth, AuthorizedInvocation.function,
              AuthorizedInvocation.subInvocations, hname,
              decide_true, Bool.and_self, Bool.true_eq_false, if_false]
            cases subInvocations with
            | nil => exact ih.trans ⟨fun hrest => ⟨⟨⟨args, rfl⟩, rfl⟩, hrest⟩, fun hall => hall.2⟩
            | cons inner others =>
                refine ⟨fun hok => ?_, fun hall => ?_⟩
                · cases hok
                · cases hall.1.2
          · have hother : (decide (contractAddress = .contract registry) &&
                decide (f.rustName functionName = function)) =
                false := by
              rw [← Bool.not_eq_true, Bool.and_eq_true, decide_eq_true_iff, decide_eq_true_iff,
                h.rustName]
              exact hcall
            simp only [checkAuth, AuthorizedInvocation.function, hother, if_true]
            refine ⟨fun hok => ?_, fun hall => ?_⟩
            · cases hok
            · obtain ⟨args', hcalls⟩ := hall.1.1
              cases hcalls
              exact absurd ⟨rfl, rfl⟩ hcall
      | createContractHostFn =>
          refine ⟨fun hok => ?_, fun hall => ?_⟩
          · cases hok
          · obtain ⟨args, hcalls⟩ := hall.1.1
            cases hcalls
      | createContractV2HostFn =>
          refine ⟨fun hok => ?_, fun hall => ?_⟩
          · cases hok
          · obtain ⟨args, hcalls⟩ := hall.1.1
            cases hcalls

/-! ## Attempts -/

/-- What the server and the network answer during one attempt; a simulation comes with what it
recorded. -/
structure Network where
  simulation : Option (Except Rejection (Prepared (List AuthorizationEntry)))
  currentFee : JobId → Option ℤ
  send : Option Unit

def Network.answers (f : Formats) (registry : Digest) (network : Network) :
    Answers (List AuthorizationEntry) where
  simulation := network.simulation
  authorized :=
    match network.simulation with
    | some (.ok prepared) => (checkAuth f registry "execute_batch" prepared.view).isOk
    | _ => true
  currentFee := network.currentFee
  send := network.send

/-- The ticks of the keeper, telling what it sends. -/
def signings (View : Type) (config : Config) (feeIsNative : Bool) :
    Machine Tick (Answers View) (Submission View) where
  step := (keeperRuns View config feeIsNative).step
  out tick answers :=
    match tick.queue with
    | [] => []
    | batch :: _ => (executeBatch config batch feeIsNative answers).2

variable {config : Config} {feeIsNative : Bool}

/-- What an attempt sends is what it simulated, once that was authorized. -/
theorem executeBatch_submission {View : Type} {jobIds : List JobId} {answers : Answers View}
    {s : Submission View} (hmem : s ∈ (executeBatch config jobIds feeIsNative answers).2) :
    answers.simulation = some (.ok s.prepared) ∧ answers.authorized = true := by
  unfold executeBatch at hmem
  split at hmem
  · cases hmem
  · cases hmem
  · cases hmem
  next prepared hsimulation =>
    split at hmem
    · cases hmem
    next hauthorized =>
      dsimp only at hmem
      split at hmem
      · cases hmem
      split at hmem
      · cases hmem
      split at hmem
      · cases hmem
      split at hmem
      · cases hmem
      obtain rfl := List.mem_singleton.mp hmem
      exact ⟨hsimulation, Bool.not_eq_false _ ▸ hauthorized⟩

theorem executeBatch_signs_checked {jobIds : List JobId} {network : Network}
    {s : Submission (List AuthorizationEntry)}
    (hmem : s ∈ (executeBatch config jobIds feeIsNative (network.answers f registry)).2) :
    checkAuth f registry "execute_batch" s.prepared.view = .ok () ∧
      network.simulation = some (.ok s.prepared) := by
  obtain ⟨hsimulation, hauthorized⟩ := executeBatch_submission hmem
  change network.simulation = some (.ok s.prepared) at hsimulation
  refine ⟨?_, hsimulation⟩
  simp only [Network.answers, hsimulation] at hauthorized
  cases hchecked : checkAuth f registry "execute_batch" s.prepared.view with
  | ok checked => rfl
  | error reason =>
      rw [hchecked] at hauthorized
      cases hauthorized

/-- In every tick, whatever is sent was accepted by the check on its simulation. -/
theorem tick_signs_checked {tick : Tick} {networks : List Network}
    {s : Submission (List AuthorizationEntry)}
    (hmem : s ∈ (signings _ config feeIsNative).outputs tick
      (networks.map (Network.answers f registry))) :
    checkAuth f registry "execute_batch" s.prepared.view = .ok () ∧
      ∃ network ∈ networks, network.simulation = some (.ok s.prepared) := by
  induction networks generalizing tick with
  | nil => cases hmem
  | cons network rest ih =>
      rcases List.mem_append.mp hmem with hnow | hlater
      · change s ∈ (match tick.queue with
          | [] => []
          | batch :: _ =>
              (executeBatch config batch feeIsNative (network.answers f registry)).2) at hnow
        split at hnow
        · cases hnow
        · obtain ⟨hchecked, hsimulation⟩ := executeBatch_signs_checked hnow
          exact ⟨hchecked, network, List.mem_cons_self, hsimulation⟩
      · obtain ⟨hchecked, other, hother, hsimulation⟩ := ih hlater
        exact ⟨hchecked, other, List.mem_cons_of_mem network hother, hsimulation⟩

end SoroCron.KeeperRs
