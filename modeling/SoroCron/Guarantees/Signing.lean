import SoroCron.KeeperBot.Signing
import SoroCron.KeeperRs.Signing

/-! # A signed keeper call authorizes only itself

Both keepers sign what a simulation recorded. Their checks accept the same recordings, those
that hold nothing but the registry call, and stand before every signature.
-/

namespace SoroCron

open KeeperBot

/-- The checks of the two keepers agree, nothing that they accept authorizes another call at
any depth, and neither keeper sends a batch whose simulation its check did not accept. -/
theorem signed_calls_authorize_only_themselves (f : Formats) (registry : Digest) :
    (∀ (method : String) (name : List UInt8), f.Identify registry method name →
      ∀ entries : List AuthorizationEntry,
        (Sdk.checkKeeperAuth f (f.strkey (.contract registry)) method entries = .ok () ↔
          KeeperRs.checkAuth f registry method entries = .ok ()) ∧
        (Sdk.checkKeeperAuth f (f.strkey (.contract registry)) method entries = .ok () →
          ∀ entry ∈ entries, ∀ invocation : AuthorizedInvocation,
            invocation.Occurs entry.rootInvocation →
            invocation.function.Calls registry name)) ∧
    (∀ (C : Type) (deps : TickDeps) (channels : List C) (quarantine : Option Quarantine)
      (ticks : List (List DueJob × List (SendAction (List AuthorizationEntry)))),
      (∀ tick ∈ ticks, ∀ action ∈ tick.2, action.Through f (f.strkey (.contract registry))) →
      ∀ t ∈ (botTicks (List AuthorizationEntry) C deps channels).outputs quarantine ticks,
        ∃ network : Network, t.answers = network.answers f (f.strkey (.contract registry)) ∧
          ∀ s ∈ t.submissions deps,
            Sdk.checkKeeperAuth f (f.strkey (.contract registry)) "execute_batch" s.prepared.view =
              .ok () ∧
            .simulated (.ok s.prepared.result) s.prepared.resourceFee s.prepared.view ∈
              network.simulations) ∧
    (∀ (config : KeeperRs.Config) (feeIsNative : Bool) (tick : KeeperRs.Tick)
      (networks : List KeeperRs.Network),
      ∀ s ∈ (KeeperRs.signings _ config feeIsNative).outputs tick
          (networks.map (KeeperRs.Network.answers f registry)),
        KeeperRs.checkAuth f registry "execute_batch" s.prepared.view = .ok () ∧
          ∃ network ∈ networks, network.simulation = some (.ok s.prepared)) := by
  refine ⟨?_, ?_, ?_⟩
  · intro method name hidentify entries
    have hsdk := Sdk.checkKeeperAuth_eq_ok hidentify entries
    have hrust := KeeperRs.checkAuth_eq_ok hidentify entries
    refine ⟨hsdk.trans hrust.symm, ?_⟩
    intro haccepted entry hentry invocation hoccurs
    exact (hsdk.mp haccepted).occurs hentry hoccurs
  · intro C deps channels quarantine ticks hthrough t ht
    exact ticks_sign_checked hthrough ht
  · intro config feeIsNative tick networks s hs
    exact KeeperRs.tick_signs_checked hs

/-! ## On testnet -/

def testnetRegistry : Digest := ⟨0xe0f31f785575aae0a2cf2d493ac50b35e7e462982626863452dd4c0109b0c50f⟩

def testnetToken : Digest := ⟨0xd7928b72c2703ccfeaf7eb9ff4ef4d504a55a8b979fc9b450ea2c842b4d1ce61⟩

def executeBatchName : List UInt8 := [101, 120, 101, 99, 117, 116, 101, 95, 98, 97, 116, 99, 104]

def transferName : List UInt8 := [116, 114, 97, 110, 115, 102, 101, 114]

def nameText (name : List UInt8) : String :=
  if name = executeBatchName then "execute_batch" else if name = transferName then
    "transfer" else ""

/-- The addresses and names of the two calls below. -/
def testnetFormats : Formats where
  strkey address :=
    if address = .contract testnetRegistry then
      "CDQPGH3YKV22VYFCZ4WUSOWFBM26PZDCTATCNBRUKLOUYAIJWDCQ6PE4"
    else if address = .contract testnetToken then
      "CDLZFC3SYJYDZT7K67VZ75HPJVIEUVNIXF47ZG2FB2RMQQVU2HHGCYSC"
    else
      ""
  sdkName := nameText
  rustName := nameText
  debug _ := ""

theorem nameText_eq_iff (name : List UInt8) :
    nameText name = "execute_batch" ↔ name = executeBatchName := by
  unfold nameText
  split
  next heq => simp [heq]
  next hne =>
    split
    · simp [hne]
    · simp [hne]

theorem testnetFormats_identify :
    testnetFormats.Identify testnetRegistry "execute_batch" executeBatchName where
  address address hsame := by
    simp only [testnetFormats, if_true] at hsame
    split at hsame
    · assumption
    split at hsame
    · simp at hsame
    · simp at hsame
  shown := by simp [testnetFormats]
  sdkName := nameText_eq_iff
  rustName := nameText_eq_iff

def transferOfKeeper : AuthorizedInvocation :=
  .mk (.contractFn (.contract testnetToken) transferName []) []

def registryCall (nested : List AuthorizedInvocation) : List AuthorizationEntry :=
  [⟨.mk (.contractFn (.contract testnetRegistry) executeBatchName []) nested⟩]

/-- The Rust keeper's batch asks for `auth`, and would be sent. -/
def askingFor (auth : List AuthorizationEntry) : KeeperRs.Network where
  simulation := some (.ok { result := [true], resourceFee := 10, view := auth })
  currentFee _ := some 1000
  send := some ()

def twoBatches : KeeperRs.Tick where
  summary := {}
  quarantine := {}
  queue := [[7], [8]]

/-- The TypeScript keeper's batch asks for no more than itself, but its account was used
elsewhere. -/
def staleNetwork : Network where
  inclusionFee := 100
  simulation := .simulated (.ok [true]) 500 (registryCall [])
  restore := .ok ()
  resimulation := .threw .other
  send := .error .staleSequence
  rebuilt := .simulated (.ok [true]) 500 (registryCall [transferOfKeeper])
  resend := .ok ()

def staleTick : List DueJob × List (SendAction (List AuthorizationEntry)) :=
  ([⟨1, 40⟩], [.start 0,
    .turn ⟨0, staleNetwork.answers testnetFormats
      (testnetFormats.strkey (.contract testnetRegistry))⟩])

/-- A call with a transfer of the keeper's tokens nested in it is refused by both keepers, also
when it is built again for a second attempt. -/
theorem signed_calls_authorize_only_themselves_testnet :
    (∀ entry ∈ registryCall [], ∀ invocation : AuthorizedInvocation,
      invocation.Occurs entry.rootInvocation →
      invocation.function.Calls testnetRegistry executeBatchName) ∧
    Sdk.checkKeeperAuth testnetFormats
      (testnetFormats.strkey (.contract testnetRegistry)) "execute_batch"
      (registryCall [transferOfKeeper]) ≠ .ok () ∧
    (∃ t ∈ (botTicks _ ℕ Sending.pairDeps [0]).outputs none [staleTick],
      ∃ s ∈ t.submissions Sending.pairDeps,
      Sdk.checkKeeperAuth testnetFormats
        (testnetFormats.strkey (.contract testnetRegistry)) "execute_batch"
        s.prepared.view = .ok () ∧ (t.submissions Sending.pairDeps).length = 1) ∧
    ∃ s, (KeeperRs.signings _ KeeperRs.plainConfig true).outputs twoBatches
        ([askingFor (registryCall []), askingFor (registryCall [transferOfKeeper])].map
          (KeeperRs.Network.answers testnetFormats testnetRegistry)) = [s] ∧
      KeeperRs.checkAuth testnetFormats testnetRegistry "execute_batch" s.prepared.view =
        .ok () := by
  obtain ⟨hchecks, hbot, hrust⟩ :=
    signed_calls_authorize_only_themselves testnetFormats testnetRegistry
  have hagree := hchecks "execute_batch" executeBatchName testnetFormats_identify
  refine ⟨(hagree (registryCall [])).2 rfl, ?_, ?_, ?_⟩
  · intro haccepted
    obtain ⟨args, hcalls⟩ := (hagree _).2 haccepted _ List.mem_cons_self transferOfKeeper
      (.nested List.mem_cons_self .root)
    cases hcalls
  · have hthrough : ∀ tick ∈ [staleTick], ∀ action ∈ tick.2,
        action.Through testnetFormats (testnetFormats.strkey (.contract testnetRegistry)) := by
      simp [staleTick, SendAction.Through]
    have hmade : (botTicks _ ℕ Sending.pairDeps [0]).outputs none [staleTick] ≠ [] := by
      intro hnone
      cases hnone
    obtain ⟨t, ht⟩ := List.exists_mem_of_ne_nil _ hmade
    obtain ⟨network, -, hsigned⟩ := hbot ℕ Sending.pairDeps [0] none [staleTick] hthrough t ht
    obtain rfl := List.mem_singleton.mp ht
    exact ⟨_, ht, _, List.mem_cons_self, (hsigned _ List.mem_cons_self).1, rfl⟩
  · have hsent : (KeeperRs.signings _ KeeperRs.plainConfig true).outputs twoBatches
        ([askingFor (registryCall []), askingFor (registryCall [transferOfKeeper])].map
          (KeeperRs.Network.answers testnetFormats testnetRegistry)) =
        [⟨[7], ⟨[true], 10, registryCall []⟩, 100⟩] := rfl
    refine ⟨_, hsent, (hrust KeeperRs.plainConfig true twoBatches [askingFor (registryCall []),
      askingFor (registryCall [transferOfKeeper])] _ ?_).1⟩
    rw [hsent]
    exact List.mem_singleton_self _

end SoroCron
