import SoroCron.Contracts.Subscription

/-! # Subscribers are billed fairly

In any run of the subscription contract a subscriber is charged in distinct periods of its present
subscription only, once each, and all charges since an approval stay within what it approved.
-/

namespace SoroCron.SubscriptionContract

open Outcome Bounded

variable {plan : Plan} {accepts : TokenAccepts} {s s' : State} {who : Address} {sub : Subscription}

/-! ## Calls -/

theorem subscribe_eq_ok {ctx : Ctx} (h : subscribe s ctx who = .ok s') : s.subs.get who = none ∧
    s' =
      { s with subs := s.subs.set who { start := s.now, lastCharged := none, payments := 0 } } := by
  simp only [subscribe, bind_eq_ok, require_eq_ok, raise_eq_ok, rejectIf_eq_ok, exists_unit,
    pure_eq_ok] at h
  obtain ⟨-, hnew, rfl⟩ := h
  refine ⟨?_, rfl⟩
  simpa [Store.has] using hnew

theorem cancel_eq_ok {ctx : Ctx} (h : cancel s ctx who = .ok s') :
    s' = { s with subs := s.subs.remove who } := by
  simp only [cancel, bind_eq_ok, require_eq_ok, exists_unit, pure_eq_ok] at h
  exact h.2.symm

theorem bindJob_eq_ok {ctx : Ctx} {jobId : JobId} (h : bindJob s ctx who jobId = .ok s') :
    s' = { s with jobs := s.jobs.set jobId who } := by
  simp only [bindJob, bind_eq_ok, require_eq_ok, exists_unit, pure_eq_ok] at h
  exact h.2.symm

/-- A charge comes in a later period than the one before it, and takes one price. -/
theorem charge_eq_ok (h : charge plan s accepts who = .ok s') :
    ∃ sub, s.subs.get who = some sub ∧ (∀ last ∈ sub.lastCharged, last < currentPeriod plan s sub) ∧
      plan.price ≤ s.allowance who ∧ s' = { s with
        balances := s.balances + movedBy plan.token who plan.merchant plan.price
        allowance := Function.update s.allowance who (s.allowance who - plan.price)
        subs := s.subs.set who { sub with
          lastCharged := some (currentPeriod plan s sub), payments := sub.payments + 1 } } := by
  simp only [charge, transferFrom, bind_eq_ok, raise_eq_ok, okOr_eq_ok, rejectIf_eq_ok,
    require_eq_ok, orTrap_eq_ok, Balances.transfer_eq_some, exists_unit, pure_eq_ok] at h
  obtain ⟨sub, hsub, hperiod, hallowed, -, -, balances, ⟨-, rfl⟩, rfl⟩ := h
  refine ⟨sub, hsub, ?_, not_lt.mp hallowed, rfl⟩
  intro last hlast
  by_contra hlate
  exact hperiod ⟨last, hlast, not_lt.mp hlate⟩

/-- The contract rejects a charge with an error of its own exactly if the subscriber is not
billable. -/
theorem isBillable_iff (accepts : TokenAccepts) : isBillable plan s who = true ↔
    ∀ reason, charge plan s accepts who ≠ .error (.rejected reason) := by
  have hrejected : ∀ reason, charge plan s accepts who = .error (.rejected reason) ↔
      (s.subs.get who = none ∧ reason = .notSubscribed) ∨ ∃ sub, s.subs.get who = some sub ∧
        (((∃ last ∈ sub.lastCharged, currentPeriod plan s sub ≤ last) ∧ reason = .alreadyCharged) ∨
          (¬ (∃ last ∈ sub.lastCharged, currentPeriod plan s sub ≤ last) ∧
            s.allowance who < plan.price ∧ reason = .insufficientAllowance)) := by
    intro reason
    simp only [charge, transferFrom, bind_eq_error, raise_eq_rejected, raise_eq_ok, okOr_eq_error,
      okOr_eq_ok,
      rejectIf_eq_error, rejectIf_eq_ok, require_ne_rejected, require_eq_ok, orTrap_ne_rejected,
        exists_unit, false_or,
      eq_comm (b := reason)]
    simp [pure, Except.pure]
  unfold isBillable
  cases hsub : s.subs.get who with
  | none =>
      refine iff_of_false Bool.false_ne_true ?_
      intro hall
      exact hall .notSubscribed ((hrejected _).mpr (.inl ⟨hsub, rfl⟩))
  | some sub =>
      simp only [Bool.and_eq_true, Option.all_eq_true, decide_eq_true_eq]
      constructor
      · rintro ⟨hperiod, hallowed⟩ reason hcharge
        rcases (hrejected reason).mp hcharge with ⟨hnone, -⟩ |
          ⟨found, hfound, ⟨⟨last, hlast, hle⟩, -⟩ | ⟨-, hlt, -⟩⟩
        · rw [hsub] at hnone
          cases hnone
        · cases hsub.symm.trans hfound
          exact absurd (hperiod last hlast) (Nat.not_lt.mpr hle)
        · exact absurd hallowed (not_le.mpr hlt)
      · intro hall
        have hperiod : ¬ ∃ last ∈ sub.lastCharged, currentPeriod plan s sub ≤ last := by
          intro hlate
          exact hall .alreadyCharged ((hrejected _).mpr (.inr ⟨sub, hsub, .inl ⟨hlate, rfl⟩⟩))
        refine ⟨?_, ?_⟩
        · intro last hlast
          by_contra hlate
          exact hperiod ⟨last, hlast, not_lt.mp hlate⟩
        · by_contra hshort
          exact hall .insufficientAllowance
            ((hrejected _).mpr (.inr ⟨sub, hsub, .inr ⟨hperiod, not_le.mp hshort, rfl⟩⟩))

/-! ## What was done about a subscriber -/

/-- The deed begins or ends a subscription of `who`. -/
def Deed.turns (who : Address) : Deed → Bool
  | .subscribed subscriber | .cancelled subscriber => subscriber = who
  | _ => false

/-- The last beginning or end of a subscription. -/
def lastTurn (who : Address) (past : List (Timestamp × Deed)) : Option (Timestamp × Deed) :=
  (past.filter fun entry => entry.2.turns who).getLast?

/-- When `who` was charged since then. -/
def chargesSince (who : Address) (past : List (Timestamp × Deed)) : List Timestamp :=
  past.foldl (fun times entry => if entry.2.turns who then [] else
    if entry.2 = .charged who then times ++ [entry.1] else times) []

/-- What the deeds leave of an allowance. -/
def allowanceAfter (price : ℤ) (who : Address) (allowed : ℤ) (past : List (Timestamp × Deed)) : ℤ :=
  past.foldl (fun left entry => match entry.2 with
    | .allowed holder amount => if holder = who then amount else left
    | .charged subscriber => if subscriber = who then left - price else left
    | _ => left) allowed

/-- The present subscription with the times at which it was charged, all of them in the order of
their billing periods. -/
structure Billed (plan : Plan) (now : Timestamp) (sub : Subscription) (times : List Timestamp) :
    Prop where
  started : sub.start ≤ now
  payments : times.length = sub.payments
  within : ∀ time ∈ times, sub.start ≤ time ∧ time ≤ now
  last : sub.lastCharged = times.getLast?.map fun time => (time - sub.start) / plan.period
  once : times.Pairwise fun earlier later =>
    (earlier - sub.start) / plan.period < (later - sub.start) / plan.period

/-- What the deeds so far say of a subscriber. -/
structure Account (plan : Plan) (allowed : ℤ) (who : Address) (past : List (Timestamp × Deed))
    (s : State) : Prop where
  subscribed : ∀ sub ∈ s.subs.get who, lastTurn who past = some (sub.start, .subscribed who) ∧
    Billed plan s.now sub (chargesSince who past)
  unsubscribed : s.subs.get who = none → chargesSince who past = [] ∧
    ∀ entry ∈ lastTurn who past, entry.2 = .cancelled who
  allowance : s.allowance who = allowanceAfter plan.price who allowed past

theorem Billed.later {now now' : Timestamp} {times : List Timestamp} (h : Billed plan now sub times)
    (hle : now ≤ now') : Billed plan now' sub times :=
  ⟨h.started.trans hle, h.payments, fun time hmem =>
    ⟨(h.within time hmem).1, (h.within time hmem).2.trans hle⟩,
    h.last, h.once⟩

/-- Another charge, in a later period than the one before it. -/
theorem Billed.charge {now : Timestamp} {times : List Timestamp} (h : Billed plan now sub times)
    (hperiod : ∀ last ∈ sub.lastCharged, last < (now - sub.start) / plan.period) :
    Billed plan now { sub with
      lastCharged := some ((now - sub.start) / plan.period), payments := sub.payments + 1 }
        (times ++ [now]) := by
  refine ⟨h.started, ?_, ?_, ?_, ?_⟩
  · rw [List.length_append, h.payments]
    rfl
  · intro time hmem
    rcases List.mem_append.mp hmem with hold | hnew
    · exact h.within time hold
    · rw [List.mem_singleton.mp hnew]
      exact ⟨h.started, le_rfl⟩
  · rw [List.getLast?_concat]
    rfl
  · refine List.pairwise_append.mpr ⟨h.once, List.pairwise_singleton _ _, ?_⟩
    intro earlier hearlier later hlater
    rw [List.mem_singleton.mp hlater]
    have hlast := h.last
    rcases List.eq_nil_or_concat' times with rfl | ⟨before, final, rfl⟩
    · cases hearlier
    · rw [List.getLast?_concat] at hlast
      have hfinal := hperiod _ hlast
      -- The last charge was in the latest of the earlier periods.
      rcases List.mem_append.mp hearlier with hold | hnew
      · exact lt_trans
          ((List.pairwise_append.mp h.once).2.2 earlier hold final List.mem_cons_self) hfinal
      · rw [List.mem_singleton.mp hnew]
        exact hfinal

/-- At most one charge for each period that has begun. -/
theorem Billed.count {now : Timestamp} {times : List Timestamp} (h : Billed plan now sub times) :
    sub.payments ≤ (now - sub.start) / plan.period + 1 := by
  have hperiods : (times.map fun time => (time - sub.start) / plan.period).Nodup := by
    rw [List.Nodup, List.pairwise_map]
    exact h.once.imp fun hlt => hlt.ne
  have hrange : (times.map fun time => (time - sub.start) / plan.period) ⊆
      List.range ((now - sub.start) / plan.period + 1) := by
    intro period hmem
    obtain ⟨time, htime, rfl⟩ := List.mem_map.mp hmem
    rw [List.mem_range, Nat.lt_succ_iff]
    exact Nat.div_le_div_right (Nat.sub_le_sub_right (h.within time htime).2 _)
  have hlength := (hperiods.subperm hrange).length_le
  rwa [List.length_map, List.length_range, h.payments] at hlength

/-! ## One action -/

section Concat

variable (past : List (Timestamp × Deed)) (entry : Timestamp × Deed)

theorem lastTurn_concat : lastTurn who (past ++ [entry]) =
    if entry.2.turns who then some entry else lastTurn who past := by
  rw [lastTurn, List.filter_append]
  split
  next hturns => simp [hturns]
  next hkept => simp [hkept, lastTurn]

theorem chargesSince_concat : chargesSince who (past ++ [entry]) = if entry.2.turns who then [] else
    if entry.2 = .charged who then chargesSince who past ++ [entry.1] else chargesSince who past :=
  List.foldl_append

theorem allowanceAfter_concat (price allowed : ℤ) :
    allowanceAfter price who allowed (past ++ [entry]) =
    match entry.2 with
    | .allowed holder amount =>
        if holder = who then amount else allowanceAfter price who allowed past
    | .charged subscriber =>
        if subscriber = who then allowanceAfter price who allowed past - price
        else allowanceAfter price who allowed past
    | _ => allowanceAfter price who allowed past :=
  List.foldl_append

end Concat

def Deed.about : Deed → Address
  | .subscribed who | .charged who | .cancelled who | .allowed who _ => who

variable {allowed : ℤ} {past : List (Timestamp × Deed)}

/-- What does not touch a subscriber leaves its account as it is. -/
theorem Account.same (h : Account plan allowed who past s)
    (hsubs : s'.subs.get who = s.subs.get who)
    (hallowance : s'.allowance who = s.allowance who) (hnow : s.now ≤ s'.now) :
    Account plan allowed who past s' := by
  refine ⟨?_, ?_, hallowance.trans h.allowance⟩
  · intro sub hsub
    rw [hsubs] at hsub
    obtain ⟨hturn, hbilled⟩ := h.subscribed sub hsub
    exact ⟨hturn, hbilled.later hnow⟩
  · intro hnone
    exact h.unsubscribed (hsubs ▸ hnone)

/-- Nor does a deed about somebody else. -/
theorem Account.other {entry : Timestamp × Deed} (h : Account plan allowed who past s)
    (hother : entry.2.about ≠ who) : Account plan allowed who (past ++ [entry]) s := by
  have hturns : entry.2.turns who = false := by
    cases hdeed : entry.2 with
    | subscribed subscriber => simpa [hdeed, Deed.turns, Deed.about] using hother
    | cancelled subscriber => simpa [hdeed, Deed.turns, Deed.about] using hother
    | _ => rfl
  have hcharged : entry.2 ≠ .charged who := by
    intro heq
    rw [heq] at hother
    exact hother rfl
  have hturn : lastTurn who (past ++ [entry]) = lastTurn who past := by
    rw [lastTurn_concat, hturns]
    rfl
  have hcharges : chargesSince who (past ++ [entry]) = chargesSince who past := by
    rw [chargesSince_concat, hturns, if_neg hcharged]
    rfl
  have hallowance : allowanceAfter plan.price who allowed (past ++ [entry]) =
      allowanceAfter plan.price who allowed past := by
    rw [allowanceAfter_concat]
    cases hdeed : entry.2 with
    | charged subscriber => exact if_neg (by simpa [hdeed, Deed.about] using hother)
    | allowed holder amount => exact if_neg (by simpa [hdeed, Deed.about] using hother)
    | _ => rfl
  refine ⟨?_, ?_, ?_⟩
  · rw [hturn, hcharges]
    exact h.subscribed
  · rw [hturn, hcharges]
    exact h.unsubscribed
  · rw [hallowance]
    exact h.allowance

/-- A subscription that begins has no charges. -/
theorem Account.begun (h : Account plan allowed who past s) : Account plan allowed who
    (past ++ [(s.now, .subscribed who)])
    { s with subs := s.subs.set who { start := s.now, lastCharged := none, payments := 0 } } := by
  have hturns : (Deed.subscribed who).turns who = true := decide_eq_true rfl
  refine ⟨?_, ?_, ?_⟩
  · rintro sub hsub
    cases (Store.get_set_self _ _ _).symm.trans hsub
    refine ⟨by rw [lastTurn_concat, if_pos hturns], ?_⟩
    rw [chargesSince_concat, if_pos hturns]
    exact ⟨le_rfl, rfl, by simp, rfl, List.Pairwise.nil⟩
  · intro hnone
    cases (Store.get_set_self _ _ _).symm.trans hnone
  · rw [allowanceAfter_concat]
    exact h.allowance

theorem Account.ended (h : Account plan allowed who past s) : Account plan allowed who
    (past ++ [(s.now, .cancelled who)]) { s with subs := s.subs.remove who } := by
  have hturns : (Deed.cancelled who).turns who = true := decide_eq_true rfl
  refine ⟨?_, ?_, ?_⟩
  · rintro sub hsub
    cases (Store.get_remove_self _ _).symm.trans hsub
  · intro _
    rw [chargesSince_concat, lastTurn_concat, if_pos hturns, if_pos hturns]
    exact ⟨rfl, by simp⟩
  · rw [allowanceAfter_concat]
    exact h.allowance

theorem Account.charged (h : Account plan allowed who past s)
    (hcharge : charge plan s accepts who = .ok s') :
    Account plan allowed who (past ++ [(s.now, .charged who)]) s' := by
  obtain ⟨sub, hsub, hperiod, -, rfl⟩ := charge_eq_ok hcharge
  obtain ⟨hturn, hbilled⟩ := h.subscribed sub hsub
  refine ⟨?_, ?_, ?_⟩
  · rintro found hfound
    cases (Store.get_set_self _ _ _).symm.trans hfound
    refine ⟨by rw [lastTurn_concat]; exact hturn, ?_⟩
    rw [chargesSince_concat]
    simp only [Deed.turns, Bool.false_eq_true, if_false, if_true]
    exact hbilled.charge hperiod
  · intro hnone
    cases (Store.get_set_self _ _ _).symm.trans hnone
  · rw [allowanceAfter_concat]
    simp only [Function.update_self, if_true]
    rw [h.allowance]

theorem Account.approved {amount : ℤ} (h : Account plan allowed who past s) :
    Account plan allowed who
    (past ++ [(s.now, .allowed who amount)])
    { s with allowance := Function.update s.allowance who amount } := by
  refine ⟨?_, ?_, ?_⟩
  · rintro sub hsub
    obtain ⟨hturn, hbilled⟩ := h.subscribed sub hsub
    rw [lastTurn_concat, chargesSince_concat]
    exact ⟨hturn, hbilled⟩
  · intro hnone
    rw [lastTurn_concat, chargesSince_concat]
    exact h.unsubscribed hnone
  · rw [allowanceAfter_concat]
    simp

theorem Account.step (h : Account plan allowed who past s) (action : Action) :
    Account plan allowed who (past ++ (system plan accepts).out s action)
      ((system plan accepts).step s action) := by
  have hnothing : past ++ ([] : List (Timestamp × Deed)) = past := List.append_nil past
  simp only [system]
  cases action with
  | subscribe ctx subscriber =>
      simp only [act]
      cases hcall : SubscriptionContract.subscribe s ctx subscriber with
      | error why => exact hnothing.symm ▸ h
      | ok s' =>
          obtain ⟨-, rfl⟩ := subscribe_eq_ok hcall
          by_cases hwho : subscriber = who
          · subst hwho
            exact h.begun
          · refine Account.other (h.same ?_ rfl le_rfl) ?_
            · exact Store.get_set_of_ne _ _ (Ne.symm hwho)
            · exact hwho
  | bindJob ctx subscriber jobId =>
      simp only [act]
      cases hcall : SubscriptionContract.bindJob s ctx subscriber jobId with
      | error why => exact hnothing.symm ▸ h
      | ok s' =>
          rw [bindJob_eq_ok hcall]
          exact hnothing.symm ▸ h.same rfl rfl le_rfl
  | charge subscriber =>
      simp only [act]
      cases hcall : SubscriptionContract.charge plan s accepts subscriber with
      | error why => exact hnothing.symm ▸ h
      | ok s' =>
          by_cases hwho : subscriber = who
          · subst hwho
            exact h.charged hcall
          · obtain ⟨sub, -, -, -, rfl⟩ := charge_eq_ok hcall
            refine Account.other (h.same ?_ ?_ le_rfl) ?_
            · exact Store.get_set_of_ne _ _ (Ne.symm hwho)
            · exact Function.update_of_ne (Ne.symm hwho) _ _
            · exact hwho
  | cancel ctx subscriber =>
      simp only [act]
      cases hcall : SubscriptionContract.cancel s ctx subscriber with
      | error why => exact hnothing.symm ▸ h
      | ok s' =>
          rw [cancel_eq_ok hcall]
          by_cases hwho : subscriber = who
          · subst hwho
            exact h.ended
          · refine Account.other (h.same ?_ rfl le_rfl) ?_
            · exact Store.get_remove_of_ne _ (Ne.symm hwho)
            · exact hwho
  | allow holder amount =>
      by_cases hwho : holder = who
      · subst hwho
        exact h.approved
      · refine Account.other (h.same rfl ?_ le_rfl) ?_
        · exact Function.update_of_ne (Ne.symm hwho) _ _
        · exact hwho
  | move balances => exact hnothing.symm ▸ h.same rfl rfl le_rfl
  | pass seconds => exact hnothing.symm ▸ h.same rfl rfl (Nat.le_add_right _ _)

/-- An action is at most one deed, and it charges nobody beyond the allowance. -/
theorem out_cases (plan : Plan) (accepts : TokenAccepts) (who : Address) (s : State)
    (action : Action) : (system plan accepts).out s action = [] ∨
    ∃ deed, (system plan accepts).out s action = [(s.now, deed)] ∧
      (deed = .charged who → plan.price ≤ s.allowance who) := by
  cases action with
  | charge subscriber =>
      simp only [system, act]
      cases hcall : SubscriptionContract.charge plan s accepts subscriber with
      | error why => exact .inl rfl
      | ok s' =>
          obtain ⟨sub, -, -, hallowed, -⟩ := charge_eq_ok hcall
          refine .inr ⟨.charged subscriber, rfl, ?_⟩
          rintro ⟨⟩
          exact hallowed
  | subscribe ctx subscriber =>
      simp only [system, act]
      split
      · exact .inr ⟨.subscribed subscriber, rfl, by simp⟩
      · exact .inl rfl
  | bindJob ctx subscriber jobId =>
      simp only [system, act]
      split
      · exact .inl rfl
      · exact .inl rfl
  | cancel ctx subscriber =>
      simp only [system, act]
      split
      · exact .inr ⟨.cancelled subscriber, rfl, by simp⟩
      · exact .inl rfl
  | allow holder amount => exact .inr ⟨.allowed holder amount, rfl, by simp⟩
  | move balances => exact .inl rfl
  | pass seconds => exact .inl rfl

/-! ## Over a run -/

/-- Every charge so far found the allowance that it needed. -/
def Covered (plan : Plan) (allowed : ℤ) (who : Address) (past : List (Timestamp × Deed)) : Prop :=
  ∀ before after time, past = before ++ (time, .charged who) :: after →
    plan.price ≤ allowanceAfter plan.price who allowed before

theorem Covered.concat {entry : Timestamp × Deed} (h : Covered plan allowed who past)
    (hcharged : entry.2 = .charged who → plan.price ≤ allowanceAfter plan.price who allowed past) :
    Covered plan allowed who (past ++ [entry]) := by
  intro before after time hsplit
  cases after using List.reverseRecOn with
  | nil =>
      obtain ⟨rfl, hlast⟩ := List.append_inj' hsplit rfl
      exact hcharged (congrArg Prod.snd (List.singleton_inj.mp hlast))
  | append_singleton after last =>
      rw [← List.cons_append, ← List.append_assoc] at hsplit
      exact h before after time (List.append_inj' hsplit rfl).1

/-- In a run from the constructor, the deeds tell each subscriber's account at every moment. -/
theorem account_run (plan : Plan) (accepts : TokenAccepts) (now : Timestamp) (balances : Balances)
    (allowance : Address → ℤ) (actions : List Action) (who : Address) :
    Account plan (allowance who) who
      ((system plan accepts).outputs (.deployed now balances allowance) actions)
        ((system plan accepts).run (.deployed now balances allowance) actions) ∧
      Covered plan (allowance who) who
        ((system plan accepts).outputs (.deployed now balances allowance) actions) := by
  let J : List (Timestamp × Deed) → State → Prop := fun past s =>
    Account plan (allowance who) who past s ∧ Covered plan (allowance who) who past
  have hstart : J [] (.deployed now balances allowance) := by
    refine ⟨⟨?_, ?_, rfl⟩, ?_⟩
    · rintro sub hsub
      cases (Store.get_empty who).symm.trans hsub
    · intro _
      exact ⟨rfl, by simp [lastTurn]⟩
    · intro before after time hsplit
      exact absurd hsplit.symm (List.append_ne_nil_of_right_ne_nil _ (List.cons_ne_nil _ _))
  refine Machine.history_run (J := J) ?_ [] hstart
    (Machine.along_of_forall (fun _ _ => trivial) _ actions)
  rintro past s action ⟨haccount, hcovered⟩ -
  refine ⟨haccount.step action, ?_⟩
  rcases out_cases plan accepts who s action with hnone | ⟨deed, hone, hallowed⟩
  · rw [hnone, List.append_nil]
    exact hcovered
  · rw [hone]
    refine hcovered.concat ?_
    intro hcharged
    rw [← haccount.allowance]
    exact hallowed hcharged

/-- Every subscriber of a run is charged at most once per billing period, only while subscribed,
and never more than what its approvals leave; and it is billable exactly when the contract itself
has nothing against a charge. -/
theorem subscribers_are_billed_fairly (plan : Plan) (accepts : TokenAccepts) (now : Timestamp)
    (balances : Balances) (allowance : Address → ℤ) (actions : List Action) (who : Address) :
    let start := State.deployed now balances allowance
    let final := (system plan accepts).run start actions
    let deeds := (system plan accepts).outputs start actions
    Account plan (allowance who) who deeds final ∧
    (∀ sub ∈ final.subs.get who, sub.payments ≤ (final.now - sub.start) / plan.period + 1) ∧
    (∀ before after time, deeds = before ++ (time, .charged who) :: after →
      plan.price ≤ allowanceAfter plan.price who (allowance who) before) ∧
    (isBillable plan final who = true ↔
      ∀ reason, charge plan final accepts who ≠ .error (.rejected reason)) := by
  obtain ⟨haccount, hcovered⟩ := account_run plan accepts now balances allowance actions who
  refine ⟨haccount, ?_, hcovered, isBillable_iff accepts⟩
  rintro sub hsub
  exact (haccount.subscribed sub hsub).2.count

end SoroCron.SubscriptionContract
