import Mathlib.Data.Int.Basic
import Mathlib.Data.List.Nodup
import SoroCron.Foundation.Machine

/-! # Endpoint failover

With several RPC endpoints the keeper probes each of them every tick and uses the first one,
in configured order, that answers, does not trail the others and does not fail ticks. The
clients stay connected to the old endpoint until connecting to the new one has worked.
-/

namespace SoroCron.KeeperBot

/-! ## Endpoints -/

structure EndpointStatus where
  url : String
  /-- The last probe answered. -/
  up : Bool := true
  failures : ℕ := 0
  okProbes : ℕ := 0
  ledger : Option ℤ := none
  deriving DecidableEq

structure EndpointOptions where
  maxFailures : ℕ := 3
  maxLag : ℤ := 10
  recoverAfter : ℕ := 5

namespace EndpointStatus

/-- A probe answered at `ledger`, or failed. Enough answers in a row clear the record of an
endpoint that is not in use. -/
def probed (status : EndpointStatus) (recoverAfter : ℕ) (active : Bool) (ledger : Option ℤ) :
    EndpointStatus :=
  match ledger with
  | none => { status with up := false, okProbes := 0 }
  | some ledger =>
      { status with
        up := true
        ledger := some ledger
        okProbes := status.okProbes + 1
        failures := if active = false ∧ recoverAfter ≤ status.okProbes + 1 then 0
          else status.failures }

def failed (status : EndpointStatus) : EndpointStatus :=
  { status with failures := status.failures + 1, okProbes := 0 }

def succeeded (status : EndpointStatus) : EndpointStatus := { status with failures := 0 }

@[simp] theorem probed_url (status : EndpointStatus) (recoverAfter : ℕ) (active : Bool)
    (ledger : Option ℤ) : (status.probed recoverAfter active ledger).url = status.url := by
  cases ledger <;> rfl

@[simp] theorem failed_url (status : EndpointStatus) : status.failed.url = status.url := rfl

@[simp] theorem succeeded_url (status : EndpointStatus) : status.succeeded.url = status.url := rfl

end EndpointStatus

theorem nodup_eraseDups {α : Type} [DecidableEq α] (list : List α) : list.eraseDups.Nodup := by
  match list with
  | [] => exact List.nodup_nil
  | a :: rest =>
      rw [List.eraseDups_cons]
      have hshorter := List.length_filter_le (fun b => !b == a) rest
      refine List.nodup_cons.mpr ⟨?_, nodup_eraseDups _⟩
      simp [List.mem_eraseDups]
termination_by list.length

/-- The configured endpoints, each once, and the one in use. -/
@[ext]
structure Endpoints where
  all : List EndpointStatus
  options : EndpointOptions
  activeIndex : ℕ
  unique : (all.map EndpointStatus.url).Nodup
  active_lt : activeIndex < all.length

namespace Endpoints

def new (urls : List String) (options : EndpointOptions := {}) : Except String Endpoints :=
  if hnone : urls.eraseDups.length = 0 then
    .error "No RPC endpoints configured."
  else
    .ok
      { all := urls.eraseDups.map fun url => { url }
        options
        activeIndex := 0
        unique := by
          rw [List.map_map]
          exact (List.map_id _).symm ▸ nodup_eraseDups urls
        active_lt := by simpa using Nat.pos_of_ne_zero hnone }

def urls (endpoints : Endpoints) : List String := endpoints.all.map EndpointStatus.url

def active (endpoints : Endpoints) : String :=
  have := endpoints.active_lt
  endpoints.all[endpoints.activeIndex].url

/-- Changes the record of `url`. The source throws on an url that is not configured; the keeper
asks for none. -/
def update (endpoints : Endpoints) (url : String) (change : EndpointStatus → EndpointStatus)
    (hurl : ∀ status, (change status).url = status.url) : Endpoints :=
  { endpoints with
    all := endpoints.all.map fun status => if status.url = url then change status else status
    unique := by
      have hsame :
          (EndpointStatus.url ∘ fun status => if status.url = url then change status else status) =
          EndpointStatus.url := by
        funext status
        simp only [Function.comp_apply]
        split <;> simp [hurl]
      rw [List.map_map, hsame]
      exact endpoints.unique
    active_lt := by simpa using endpoints.active_lt }

/-- A probe of `url` answered at `ledger`, or failed. -/
def recordProbe (endpoints : Endpoints) (url : String) (ledger : Option ℤ) : Endpoints :=
  endpoints.update url
    (fun status => status.probed endpoints.options.recoverAfter (url = endpoints.active) ledger)
    (fun status => status.probed_url _ _ _)

/-- A tick using `url` failed. -/
def recordFailure (endpoints : Endpoints) (url : String) : Endpoints :=
  endpoints.update url EndpointStatus.failed EndpointStatus.failed_url

/-- A tick using `url` succeeded. -/
def recordSuccess (endpoints : Endpoints) (url : String) : Endpoints :=
  endpoints.update url EndpointStatus.succeeded EndpointStatus.succeeded_url

/-- The furthest ledger that an endpoint which is up has reported. -/
def ahead (endpoints : Endpoints) : Option ℤ :=
  ((endpoints.all.filter EndpointStatus.up).filterMap EndpointStatus.ledger).max?

def healthy (endpoints : Endpoints) (status : EndpointStatus) : Bool :=
  if status.up = false ∨ endpoints.options.maxFailures ≤ status.failures then
    false
  else
    match status.ledger, endpoints.ahead with
    | some ledger, some ahead => ahead - ledger ≤ endpoints.options.maxLag
    | _, _ => true

def anyHealthy (endpoints : Endpoints) : Bool := endpoints.all.any endpoints.healthy

/-- Makes the first healthy endpoint active and tells whether that is another one. -/
def choose (endpoints : Endpoints) : Endpoints × Bool :=
  match hindex : endpoints.all.findIdx? endpoints.healthy with
  | none => (endpoints, false)
  | some index =>
      if index = endpoints.activeIndex then
        (endpoints, false)
      else
        ({ endpoints with
            activeIndex := index
            active_lt := (List.findIdx?_eq_some_iff_findIdx_eq.mp hindex).1 }, true)

/-! ## Records -/

section

variable (endpoints : Endpoints) (url : String) {change : EndpointStatus → EndpointStatus}
  (hurl : ∀ status, (change status).url = status.url)

theorem update_all : (endpoints.update url change hurl).all =
    endpoints.all.map fun status => if status.url = url then change status else status := rfl

@[simp] theorem update_options :
    (endpoints.update url change hurl).options = endpoints.options := rfl

@[simp] theorem update_active : (endpoints.update url change hurl).active = endpoints.active := by
  unfold active
  simp only [update, List.getElem_map]
  split <;> simp [hurl]

@[simp] theorem update_urls : (endpoints.update url change hurl).urls = endpoints.urls := by
  unfold urls
  rw [update_all, List.map_map]
  refine List.map_congr_left ?_
  intro status _
  simp only [Function.comp_apply]
  split <;> simp [hurl]

end

theorem active_mem (endpoints : Endpoints) : endpoints.active ∈ endpoints.urls :=
  List.mem_map_of_mem (List.getElem_mem _)

/-- Probes of different endpoints, in any order. -/
theorem recordProbes (endpoints : Endpoints) (answers : String → Option ℤ) {order : List String}
    (horder : order.Nodup) :
    let probed := order.foldl
      (fun endpoints url => endpoints.recordProbe url (answers url)) endpoints
    probed.options = endpoints.options ∧ probed.activeIndex = endpoints.activeIndex ∧
      probed.active = endpoints.active ∧
      probed.all = endpoints.all.map fun status =>
        if status.url ∈ order then
          status.probed endpoints.options.recoverAfter (status.url = endpoints.active)
            (answers status.url)
        else status := by
  induction order generalizing endpoints with
  | nil => simp
  | cons url rest ih =>
      obtain ⟨hnot, hrest⟩ := List.nodup_cons.mp horder
      obtain ⟨hoptions, hindex, hactive, hall⟩ := ih (endpoints.recordProbe url (answers url)) hrest
      simp only [List.foldl_cons]
      refine ⟨hoptions, hindex, hactive.trans (update_active ..), hall.trans ?_⟩
      simp only [recordProbe, update_options, update_active, update_all, List.map_map]
      refine List.map_congr_left ?_
      intro status _
      simp only [Function.comp_apply]
      by_cases hurl : status.url = url
      · subst hurl
        simp [hnot]
      · simp [hurl]

end Endpoints

/-- Asks every endpoint for its latest ledger. -/
def probeEndpoints (endpoints : Endpoints) (answers : String → Option ℤ) : Endpoints :=
  endpoints.urls.foldl (fun endpoints url => endpoints.recordProbe url (answers url)) endpoints

/-- The answers may come in any order. -/
theorem probeEndpoints_any_order (endpoints : Endpoints) (answers : String → Option ℤ)
    {order : List String} (horder : order.Perm endpoints.urls) :
    order.foldl (fun endpoints url => endpoints.recordProbe url (answers url)) endpoints =
      probeEndpoints endpoints answers := by
  obtain ⟨hoptions, hindex, -, hall⟩ :=
    endpoints.recordProbes answers (horder.nodup_iff.mpr endpoints.unique)
  obtain ⟨hoptions', hindex', -, hall'⟩ := endpoints.recordProbes answers endpoints.unique
  refine Endpoints.ext (hall.trans ?_) (hoptions.trans hoptions'.symm) (hindex.trans hindex'.symm)
  refine Eq.trans ?_ hall'.symm
  simp only [horder.mem_iff]
  rfl

theorem probeEndpoints_options (endpoints : Endpoints) (answers : String → Option ℤ) :
    (probeEndpoints endpoints answers).options = endpoints.options :=
  (endpoints.recordProbes answers endpoints.unique).1

theorem probeEndpoints_active (endpoints : Endpoints) (answers : String → Option ℤ) :
    (probeEndpoints endpoints answers).active = endpoints.active :=
  (endpoints.recordProbes answers endpoints.unique).2.2.1

theorem probeEndpoints_all (endpoints : Endpoints) (answers : String → Option ℤ) :
    (probeEndpoints endpoints answers).all = endpoints.all.map fun status =>
      status.probed endpoints.options.recoverAfter (status.url = endpoints.active)
        (answers status.url) := by
  refine (endpoints.recordProbes answers endpoints.unique).2.2.2.trans (List.map_congr_left ?_)
  intro status hmem
  exact if_pos (List.mem_map_of_mem hmem)

theorem probeEndpoints_urls (endpoints : Endpoints) (answers : String → Option ℤ) :
    (probeEndpoints endpoints answers).urls = endpoints.urls := by
  unfold Endpoints.urls
  rw [probeEndpoints_all, List.map_map]
  refine List.map_congr_left ?_
  intro status _
  exact status.probed_url _ _ _

namespace Endpoints

/-! ## Health and choice -/

/-- As far as both ledgers are known, the endpoint trails none that is up by more than `maxLag`. -/
def WithinLag (endpoints : Endpoints) (status : EndpointStatus) : Prop :=
  ∀ other ∈ endpoints.all, other.up = true → ∀ ahead ∈ other.ledger, ∀ ledger ∈ status.ledger,
    ahead - ledger ≤ endpoints.options.maxLag

theorem healthy_iff {endpoints : Endpoints} {status : EndpointStatus} :
    endpoints.healthy status = true ↔
      status.up = true ∧ status.failures < endpoints.options.maxFailures ∧
      endpoints.WithinLag status := by
  have hreported : ∀ ledger, ledger ∈
      (endpoints.all.filter EndpointStatus.up).filterMap EndpointStatus.ledger ↔
      ∃ other ∈ endpoints.all, other.up = true ∧ other.ledger = some ledger := by
    intro ledger
    simp only [List.mem_filterMap, List.mem_filter, and_assoc]
  unfold healthy
  split
  next hfailing =>
    refine iff_of_false Bool.false_ne_true ?_
    rintro ⟨hup, hfew, -⟩
    rcases hfailing with hdown | hmany
    · exact Bool.false_ne_true (hdown.symm.trans hup)
    · omega
  next hworking =>
    obtain ⟨hup, hfew⟩ := not_or.mp hworking
    rw [Bool.not_eq_false] at hup
    simp only [hup, not_le.mp hfew, true_and]
    split
    next ledger ahead hledger hahead =>
      obtain ⟨hmem, hlargest⟩ := List.max?_eq_some_iff.mp hahead
      rw [decide_eq_true_iff]
      constructor
      · intro hlag other hother hotherUp theirs htheirs mine hmine
        have hle := hlargest theirs ((hreported theirs).mpr ⟨other, hother, hotherUp, htheirs⟩)
        cases hledger.symm.trans hmine
        omega
      · intro hwithin
        obtain ⟨other, hother, hotherUp, htheirs⟩ := (hreported ahead).mp hmem
        exact hwithin other hother hotherUp ahead htheirs ledger hledger
    next hunknown =>
      refine iff_of_true rfl ?_
      intro other hother hotherUp theirs htheirs mine hmine
      cases hahead : endpoints.ahead with
      | some ahead => exact absurd hahead (hunknown mine ahead hmine)
      | none =>
          have hreport := (hreported theirs).mpr ⟨other, hother, hotherUp, htheirs⟩
          rw [List.max?_eq_none_iff.mp hahead] at hreport
          cases hreport

theorem anyHealthy_iff {endpoints : Endpoints} :
    endpoints.anyHealthy = true ↔ ∃ status ∈ endpoints.all, endpoints.healthy status = true := by
  simp [anyHealthy]

/-- Only the index of the endpoint in use changes. -/
theorem choose_fst (endpoints : Endpoints) :
    endpoints.choose.1.all = endpoints.all ∧ endpoints.choose.1.options = endpoints.options := by
  unfold choose
  split
  · exact ⟨rfl, rfl⟩
  · split <;> exact ⟨rfl, rfl⟩

theorem choose_activeIndex (endpoints : Endpoints) :
    endpoints.choose.1.activeIndex =
      (endpoints.all.findIdx? endpoints.healthy).getD endpoints.activeIndex := by
  unfold choose
  split
  next hindex => rw [hindex, Option.getD_none]
  next index hindex =>
    have hgetD : (endpoints.all.findIdx? endpoints.healthy).getD endpoints.activeIndex = index := by
      rw [hindex, Option.getD_some]
    rw [hgetD]
    split
    next hsame => exact hsame.symm
    next => rfl

theorem active_of_getElem? {endpoints : Endpoints} {status : EndpointStatus}
    (hget : endpoints.all[endpoints.activeIndex]? = some status) :
    endpoints.active = status.url := by
  obtain ⟨_, hstatus⟩ := List.getElem?_eq_some_iff.mp hget
  exact congrArg EndpointStatus.url hstatus

theorem choose_first {endpoints : Endpoints} {status : EndpointStatus}
    (hfirst : endpoints.all.find? endpoints.healthy = some status) :
    endpoints.choose.1.active = status.url := by
  obtain ⟨hhealthy, index, hlt, hstatus, hbefore⟩ := List.find?_eq_some_iff_getElem.mp hfirst
  have hindex : endpoints.all.findIdx? endpoints.healthy = some index := by
    refine List.findIdx?_eq_some_iff_getElem.mpr ⟨hlt, by rwa [hstatus], ?_⟩
    intro before hlt
    have hunhealthy := hbefore before hlt
    simpa using hunhealthy
  apply active_of_getElem?
  rw [choose_activeIndex, hindex, (choose_fst endpoints).1, Option.getD_some,
    List.getElem?_eq_getElem hlt, hstatus]

/-- The endpoint in use is kept when none is healthy. -/
theorem choose_none {endpoints : Endpoints} (hnone : endpoints.all.find? endpoints.healthy = none) :
    endpoints.choose.1.active = endpoints.active := by
  have hindex : endpoints.all.findIdx? endpoints.healthy = none := by
    rw [List.findIdx?_eq_none_iff]
    intro status hmem
    simpa using List.find?_eq_none.mp hnone status hmem
  have hlt := endpoints.active_lt
  apply active_of_getElem?
  rw [choose_activeIndex, hindex, (choose_fst endpoints).1, Option.getD_none,
    List.getElem?_eq_getElem hlt]

end Endpoints

end SoroCron.KeeperBot
