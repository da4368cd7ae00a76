import SoroCron.Registry.Types

/-! # What a keeper agrees to when it signs

The authorizations that a simulated call recorded, as trees of invocations, and the SDK's check
that they allow the registry call and nothing else.
-/

namespace SoroCron

/-! ## Authorizations -/

inductive ScAddress where
  | account (key : Digest)
  | contract (id : Digest)
  | muxedAccount (id : ℕ) (key : Digest)
  | claimableBalance (id : Digest)
  | liquidityPool (id : Digest)
  deriving DecidableEq

/-- What is authorized. Names are stored as bytes. -/
inductive AuthorizedFunction where
  | contractFn (contractAddress : ScAddress) (functionName : List UInt8) (args : List Val)
  | createContractHostFn
  | createContractV2HostFn

inductive AuthorizedInvocation where
  | mk (function : AuthorizedFunction) (subInvocations : List AuthorizedInvocation)

namespace AuthorizedInvocation

def function : AuthorizedInvocation → AuthorizedFunction
  | mk function _ => function

def subInvocations : AuthorizedInvocation → List AuthorizedInvocation
  | mk _ subInvocations => subInvocations

/-- Occurring in a tree of invocations, at any depth. -/
inductive Occurs (invocation : AuthorizedInvocation) : AuthorizedInvocation → Prop where
  | root : Occurs invocation invocation
  | nested {parent child : AuthorizedInvocation} (hchild : child ∈ parent.subInvocations)
      (hoccurs : Occurs invocation child) : Occurs invocation parent

theorem Occurs.eq_of_leaf {invocation parent : AuthorizedInvocation} (h : Occurs invocation parent)
    (hleaf : parent.subInvocations = []) : invocation = parent := by
  cases h with
  | root => rfl
  | nested hchild _ =>
      rw [hleaf] at hchild
      cases hchild

end AuthorizedInvocation

structure AuthorizationEntry where
  rootInvocation : AuthorizedInvocation

/-- How the libraries of the two keepers show addresses and names. -/
structure Formats where
  strkey : ScAddress → String
  sdkName : List UInt8 → String
  rustName : List UInt8 → String
  /-- How the Rust keeper shows an address that is no contract's. -/
  debug : ScAddress → String

/-- Shown as text, the registry's address is taken for no other, and `method` for no name but
`name`. -/
structure Formats.Identify (f : Formats) (registry : Digest) (method : String) (name : List UInt8) :
    Prop where
  address : ∀ address, f.strkey address = f.strkey (.contract registry) →
    address = .contract registry
  shown : f.strkey (.contract registry) ≠ ""
  sdkName : ∀ other, f.sdkName other = method ↔ other = name
  rustName : ∀ other, f.rustName other = method ↔ other = name

/-- A call of the function `name` of the registry. -/
def AuthorizedFunction.Calls (registry : Digest) (name : List UInt8)
    (function : AuthorizedFunction) : Prop :=
  ∃ args, function = .contractFn (.contract registry) name args

/-- Nothing but the call `name` of the registry is authorized, with nothing nested inside it. -/
def CallsOnly (registry : Digest) (name : List UInt8) (entries : List AuthorizationEntry) : Prop :=
  ∀ entry ∈ entries, entry.rootInvocation.function.Calls registry name ∧
    entry.rootInvocation.subInvocations = []

/-- Then no other invocation hides anywhere. -/
theorem CallsOnly.occurs {registry : Digest} {name : List UInt8} {entries : List AuthorizationEntry}
    (h : CallsOnly registry name entries) {entry : AuthorizationEntry} (hentry : entry ∈ entries)
    {invocation : AuthorizedInvocation} (hoccurs : invocation.Occurs entry.rootInvocation) :
    invocation.function.Calls registry name := by
  obtain ⟨hcalls, hleaf⟩ := h entry hentry
  rw [hoccurs.eq_of_leaf hleaf]
  exact hcalls

/-! ## The SDK's check -/

namespace Sdk

/-- Raised instead of signing a keeper call that would authorize more than itself. -/
structure UnexpectedAuthError where
  detail : String

def UnexpectedAuthError.message (err : UnexpectedAuthError) : String :=
  "Refusing to sign: the call would also authorize " ++ err.detail

structure Description where
  contract : String
  fn : String

def describe (f : Formats) (invocation : AuthorizedInvocation) : Description :=
  match invocation.function with
  | .contractFn contractAddress functionName _ =>
      { contract := f.strkey contractAddress, fn := f.sdkName functionName }
  | .createContractHostFn =>
      { contract := "", fn := "sorobanAuthorizedFunctionTypeCreateContractHostFn" }
  | .createContractV2HostFn =>
      { contract := "", fn := "sorobanAuthorizedFunctionTypeCreateContractV2HostFn" }

/-- Throws unless every authorization entry is exactly `registry.method(...)` with nothing
nested inside it. -/
def checkKeeperAuth (f : Formats) (registry method : String) :
    List AuthorizationEntry → Except UnexpectedAuthError Unit
  | [] => .ok ()
  | entry :: rest =>
      let root := entry.rootInvocation
      let call := describe f root
      if call.contract ≠ registry ∨ call.fn ≠ method then
        .error ⟨call.fn ++ " on " ++
          (if call.contract = "" then "a non-contract function" else call.contract)⟩
      else
        match root.subInvocations with
        | nested :: _ =>
            let first := describe f nested
            .error ⟨first.fn ++ " on " ++ first.contract ++ " inside the " ++ method ++ " call"⟩
        | [] => checkKeeperAuth f registry method rest

variable {f : Formats} {registry : Digest} {method : String} {name : List UInt8}

/-- The text of an invocation is that of the call exactly if it is the call. -/
theorem describe_eq_iff (h : f.Identify registry method name) (invocation : AuthorizedInvocation) :
    ((describe f invocation).contract = f.strkey (.contract registry) ∧
      (describe f invocation).fn = method) ↔
      invocation.function.Calls registry name := by
  obtain ⟨function, subInvocations⟩ := invocation
  cases function with
  | contractFn contractAddress functionName args =>
      constructor
      · rintro ⟨haddress, hfn⟩
        obtain rfl := h.address _ haddress
        obtain rfl := (h.sdkName _).mp hfn
        exact ⟨args, rfl⟩
      · rintro ⟨args', hcalls⟩
        cases hcalls
        exact ⟨rfl, (h.sdkName _).mpr rfl⟩
  | createContractHostFn =>
      constructor
      · rintro ⟨haddress, -⟩
        exact absurd haddress.symm h.shown
      · rintro ⟨args, hcalls⟩
        cases hcalls
  | createContractV2HostFn =>
      constructor
      · rintro ⟨haddress, -⟩
        exact absurd haddress.symm h.shown
      · rintro ⟨args, hcalls⟩
        cases hcalls

theorem checkKeeperAuth_eq_ok (h : f.Identify registry method name)
    (entries : List AuthorizationEntry) :
    checkKeeperAuth f (f.strkey (.contract registry)) method entries = .ok () ↔
      CallsOnly registry name entries := by
  induction entries with
  | nil => exact ⟨fun _ entry hmem => absurd hmem List.not_mem_nil, fun _ => rfl⟩
  | cons entry rest ih =>
      have hroot := describe_eq_iff h entry.rootInvocation
      rw [CallsOnly, List.forall_mem_cons, checkKeeperAuth]
      by_cases hcall : entry.rootInvocation.function.Calls registry name
      · obtain ⟨haddress, hfn⟩ := hroot.mpr hcall
        simp only [haddress, hfn, ne_eq, not_true_eq_false, or_self, if_false]
        cases hnested : entry.rootInvocation.subInvocations with
        | nil => exact ih.trans ⟨fun hrest => ⟨⟨hcall, rfl⟩, hrest⟩, fun hall => hall.2⟩
        | cons nested others =>
            refine ⟨fun hok => ?_, fun hall => ?_⟩
            · cases hok
            · cases hall.1.2
      · have hother : (describe f entry.rootInvocation).contract ≠ f.strkey (.contract registry) ∨
            (describe f entry.rootInvocation).fn ≠ method := by
          rw [← not_and_or, hroot]
          exact hcall
        rw [if_pos hother]
        refine ⟨fun hok => ?_, fun hall => absurd hall.1.1 hcall⟩
        cases hok

end Sdk

end SoroCron
