import SoroCron.Registry.Payroll

/-! # What a batch earns

The fee of a run follows from what is stored before the call. A batch without repeated jobs pays
its keeper the keeper's part of the fees of exactly those jobs that ran.
-/

namespace SoroCron

open Outcome Bounded

variable {World : Type} {host : Host World} {c c' : Chain World} {ctx : Ctx}
  {executor keeper : Address}
  {b b' : Batch World}

/-! ## Quotes -/

/-- The base fee of a job, what a run would charge now, and the two parts of that. -/
structure Quote where
  base : ℤ
  fee : ℤ
  keeperFee : ℤ
  protocolFee : ℤ

/-- What a run of this job would charge. -/
def quote (c : Chain World) (jobId : JobId) : Option Quote := do
  let (spec, state) ← c.reg.jobs.getJobParts jobId
  let fee ← rampedFee spec state c.now
  let (keeperFee, protocolFee) ← splitFee fee c.reg.config.protocolFeeBps
  return { base := spec.feePerRun, fee, keeperFee, protocolFee }

/-- One part of the quotes of several jobs, added up. -/
def quoted (part : Quote → ℤ) (c : Chain World) (jobIds : List JobId) : ℤ :=
  (jobIds.map fun jobId => (quote c jobId).elim 0 part).sum

@[simp] theorem quoted_nil (part : Quote → ℤ) (c : Chain World) : quoted part c [] = 0 := rfl

@[simp] theorem quoted_cons (part : Quote → ℤ) (c : Chain World) (jobId : JobId)
    (rest : List JobId) :
    quoted part c (jobId :: rest) = (quote c jobId).elim 0 part + quoted part c rest := by
  rw [quoted, List.map_cons, List.sum_cons]
  rfl

/-- The two parts of any split add up. -/
theorem splitFee_sum {amount rest share : ℤ} {bps : ℕ}
    (h : splitFee amount bps = some (rest, share)) : rest + share = amount := by
  by_cases hpos : 0 < amount
  · have hrest := (splitFee_eq_some hpos h).2
    omega
  · rw [splitFee, if_pos (.inl (not_lt.mp hpos)), Option.some.injEq, Prod.mk.injEq] at h
    obtain ⟨rfl, rfl⟩ := h
    exact add_zero amount

theorem quote_eq_some {jobId : JobId} {q : Quote} (h : quote c jobId = some q) :
    ∃ spec state, c.reg.jobs.getJobParts jobId = some (spec, state) ∧ q.base = spec.feePerRun ∧
      rampedFee spec state c.now = some q.fee ∧ q.keeperFee + q.protocolFee = q.fee := by
  simp only [quote, Option.bind_eq_bind, Option.bind_eq_some_iff, Prod.exists, Option.pure_def,
    Option.some.injEq] at h
  obtain ⟨spec, state, hparts, fee, hfee, keeperFee, protocolFee, hsplit, rfl⟩ := h
  exact ⟨spec, state, hparts, rfl, hfee, splitFee_sum hsplit⟩

theorem quoted_split (c : Chain World) (jobIds : List JobId) :
    quoted Quote.keeperFee c jobIds + quoted Quote.protocolFee c jobIds =
      quoted Quote.fee c jobIds := by
  induction jobIds with
  | nil => rfl
  | cons jobId rest ih =>
      rw [quoted_cons, quoted_cons, quoted_cons, ← ih]
      cases hquote : quote c jobId with
      | none =>
          simp only [Option.elim_none]
          omega
      | some q =>
          obtain ⟨spec, state, -, -, -, hsum⟩ := quote_eq_some hquote
          simp only [Option.elim_some]
          omega

/-! ## Jobs that ran -/

/-- The items whose flag is set. Items without a flag are left out. -/
def ranOf {α : Type} (items : List α) (flags : List Bool) : List α :=
  ((items.zip flags).filter Prod.snd).map Prod.fst

section RanOf

variable {α β : Type} (items : List α) (flags : List Bool)

theorem ranOf_cons (item : α) (flag : Bool) :
    ranOf (item :: items) (flag :: flags) = if flag then item :: ranOf items flags
      else ranOf items flags := by
  cases flag with
  | true => rfl
  | false => rfl

theorem map_ranOf (f : α → β) : (ranOf items flags).map f = ranOf (items.map f) flags := by
  induction items generalizing flags with
  | nil => rfl
  | cons item rest ih =>
      cases flags with
      | nil => rfl
      | cons flag flags =>
          rw [List.map_cons, ranOf_cons, ranOf_cons, ← ih]
          split
          · exact List.map_cons
          · rfl

theorem ranOf_sublist : (ranOf items flags).Sublist items := by
  induction items generalizing flags with
  | nil => exact List.Sublist.refl _
  | cons item rest ih =>
      cases flags with
      | nil => exact List.nil_sublist _
      | cons flag flags =>
          rw [ranOf_cons]
          split
          · exact (ih flags).cons_cons item
          · exact (ih flags).cons item

theorem mem_of_mem_ranOf {item : α} (h : item ∈ ranOf items flags) : item ∈ items := by
  obtain ⟨⟨found, flag⟩, hmem, rfl⟩ := List.mem_map.mp h
  exact (List.of_mem_zip (List.mem_of_mem_filter hmem)).1

end RanOf

/-! ## A call in progress -/

/-- Nothing that prices these jobs changed since the call began. -/
structure Unpriced (c : Chain World) (jobIds : List JobId) (b : Batch World) : Prop where
  now : b.chain.now = c.now
  config : b.chain.reg.config = c.reg.config
  parts : ∀ id ∈ jobIds, b.chain.reg.jobs.getJobParts id = c.reg.jobs.getJobParts id

theorem Unpriced.tail {jobId : JobId} {rest : List JobId} (h : Unpriced c (jobId :: rest) b) :
    Unpriced c rest b :=
  ⟨h.now, h.config, fun id hid => h.parts id (List.mem_cons_of_mem _ hid)⟩

theorem Unpriced.asked {jobIds : List JobId} (h : Unpriced c jobIds b) (jobId : JobId)
    (spec : JobSpec) : Unpriced c jobIds (b.asked host jobId spec) :=
  ⟨h.now, h.config, h.parts⟩

/-- A run changes nothing for the jobs after it, unless the list repeats it. -/
theorem Unpriced.ran {jobId : JobId} {rest : List JobId} {r : Receipt World}
    (h : Unpriced c (jobId :: rest) b)
    (hnew : jobId ∉ rest) (hran : Ran host executor keeper jobId b b' r) : Unpriced c rest b' := by
  refine ⟨hran.now.trans h.now, ?_, ?_⟩
  · rw [hran.reg]
    exact h.config
  · intro id hid
    have hne : id ≠ jobId := fun heq => hnew (heq ▸ hid)
    have hsame : b'.chain.reg.jobs.getJobParts id = b.chain.reg.jobs.getJobParts id := by
      rw [hran.reg, Receipt.regAfter, JobTable.getJobParts, JobTable.getJobParts,
        JobTable.setState_states, Store.get_set_of_ne _ _ hne]
      rfl
    rw [hsame]
    exact h.tail.parts id hid

/-- A run charges what was quoted before the call. -/
theorem Unpriced.quote {jobId : JobId} {rest : List JobId} {r : Receipt World}
    (h : Unpriced c (jobId :: rest) b) (hran : Ran host executor keeper jobId b b' r) :
    SoroCron.quote c jobId = some
      ⟨r.admission.spec.feePerRun, r.fee, r.keeperFee, r.protocolFee⟩ := by
  have hparts : c.reg.jobs.getJobParts jobId = some (r.admission.spec, r.admission.state) := by
    rw [← h.parts jobId List.mem_cons_self]
    exact hran.admitted.parts
  have hfee : rampedFee r.admission.spec r.admission.state c.now = some r.fee := by
    rw [← h.now]
    exact hran.priced.fee
  have hsplit : splitFee r.fee c.reg.config.protocolFeeBps = some (r.keeperFee, r.protocolFee) := by
    rw [← h.config]
    exact hran.priced.split
  simp only [SoroCron.quote, Option.bind_eq_bind, Option.bind_eq_some_iff, Prod.exists,
    Option.pure_def, Option.some.injEq]
  exact ⟨_, _, hparts, _, hfee, _, _, hsplit, rfl⟩

/-- The payout grows by the keeper's part of the fees of the jobs that ran, all of which
have a quote. -/
theorem runJobs_pays {jobIds : List JobId} {flags : List Bool} (hnodup : jobIds.Nodup)
    (hunpriced : Unpriced c jobIds b)
    (h : runJobs host executor keeper jobIds b = .ok (flags, b')) :
    b'.payout.keeperFees = b.payout.keeperFees + quoted Quote.keeperFee c (ranOf jobIds flags) ∧
      flags.length = jobIds.length ∧ ∀ id ∈ ranOf jobIds flags, (quote c id).isSome = true := by
  induction jobIds generalizing b flags with
  | nil =>
      simp only [runJobs, Except.ok.injEq, Prod.mk.injEq] at h
      obtain ⟨rfl, rfl⟩ := h
      exact ⟨(add_zero _).symm, rfl, fun id hid => absurd hid List.not_mem_nil⟩
  | cons jobId rest ih =>
      obtain ⟨hnew, hrestnodup⟩ := List.nodup_cons.mp hnodup
      simp only [runJobs, bind_eq_ok, Prod.exists, pure_eq_ok, Prod.mk.injEq] at h
      obtain ⟨outcome, middle, hjob, others, last, hrest, rfl, rfl⟩ := h
      cases outcome with
      | ok u =>
          obtain ⟨r, hran⟩ := runJob_eq_ran.mp hjob
          have hquote := hunpriced.quote hran
          obtain ⟨hpaid, hlength, hall⟩ := ih hrestnodup (hunpriced.ran hnew hran) hrest
          change _ = _ + quoted Quote.keeperFee c (ranOf (jobId :: rest) (true :: others)) ∧ _ ∧
            ∀ id ∈ ranOf (jobId :: rest) (true :: others), _
          rw [ranOf_cons, if_pos rfl]
          refine ⟨?_, congrArg Nat.succ hlength, ?_⟩
          · rw [hpaid, hran.payout.1, quoted_cons, hquote, Option.elim_some]
            exact add_assoc _ _ _
          · intro id hid
            rcases List.mem_cons.mp hid with rfl | hid
            · rw [hquote]
              rfl
            · exact hall id hid
      | error reason =>
          have hmiddle : Unpriced c rest middle ∧ middle.payout = b.payout := by
            rcases runJob_rejected hjob with rfl | ⟨spec, rfl⟩
            · exact ⟨hunpriced.tail, rfl⟩
            · exact ⟨hunpriced.tail.asked jobId spec, rfl⟩
          obtain ⟨hpaid, hlength, hall⟩ := ih hrestnodup hmiddle.1 hrest
          rw [hmiddle.2] at hpaid
          exact ⟨hpaid, congrArg Nat.succ hlength, hall⟩

/-- What a batch without repeated jobs pays its keeper. -/
theorem executeBatch_pays {jobIds : List JobId} {flags : List Bool} (hsound : c.Sound host)
    (hnodup : jobIds.Nodup) (h : executeBatch host ctx c keeper jobIds = .ok (flags, c')) :
    total .keeper keeper (paymentsOf host ctx c (.executeBatch keeper jobIds)) =
        quoted Quote.keeperFee c (ranOf jobIds flags) ∧
      flags.length = jobIds.length ∧ ∀ id ∈ ranOf jobIds flags, (quote c id).isSome = true := by
  obtain ⟨-, executor, info, b, hauth, hruns, -⟩ := executeBatch_eq_ok.mp h
  have hunder := runJobs_underway hsound.config hsound.jobs hruns
  obtain ⟨hpaid, hlength, hall⟩ := runJobs_pays hnodup ⟨rfl, rfl, fun _ _ => rfl⟩ hruns
  refine ⟨?_, hlength, hall⟩
  have hpays : paymentsOf host ctx c (.executeBatch keeper jobIds) =
      settlement c.reg.config keeper b.payout :=
    paymentsOf_eq hauth hruns
  rw [hpays, total_settlement _ _ _ _ hunder.keeperFees hunder.protocolFees, total_shares, hpaid]
  simp [startBatch]

end SoroCron
