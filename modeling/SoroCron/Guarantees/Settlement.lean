import SoroCron.Guarantees.Exits

/-! # Settling stakes together

Releasing a list of keepers is releasing each of them in turn: every keeper that is ready is
removed and paid once, wherever and however often it is listed, and nobody else is touched.
-/

namespace SoroCron

open Outcome

variable {World : Type} {host : Host World} {ctx : Ctx} {c c' : Chain World}
  {keeper who : Address} {keepers : List Address} {amounts : List ℤ}

/-- The unbonding of a keeper has finished. -/
def Matured (c : Chain World) (who : Address) : Prop :=
  ∃ info release, c.reg.keepers.infos.get who = some info ∧ info.unbondingAt = some release ∧
    release ≤ c.now

/-- `c'` is `c` after every listed keeper that is ready was removed and paid what it staked,
reported where it is first listed. -/
structure SettledOnce (host : Host World) (c : Chain World) (keepers : List Address)
    (amounts : List ℤ) (c' : Chain World) : Prop where
  removed : ∀ who ∈ keepers, Matured c who →
    c'.reg.keepers.infos.get who = none ∧ c'.reg.keepers.recents.get who = none
  kept : ∀ who, ¬ (who ∈ keepers ∧ Matured c who) →
    c'.reg.keepers.infos.get who = c.reg.keepers.infos.get who ∧
      c'.reg.keepers.recents.get who = c.reg.keepers.recents.get who
  rest : c'.reg = { c.reg with keepers := { c.reg.keepers with
    infos := c'.reg.keepers.infos, recents := c'.reg.keepers.recents } }
  paid : c'.balances = c.balances +
    ∑ who ∈ keepers.toFinset, movedBy c.reg.config.stakeToken host.registry who (releasable c who)
  length : amounts.length = keepers.length
  reported : ∀ (i : ℕ) who, keepers[i]? = some who →
    amounts[i]? = some (if who ∈ keepers.take i then 0 else releasable c who)

/-! ## One keeper -/

/-- What is releasable of a keeper is its whole stake or nothing. -/
theorem releasable_of_matured {info : Keeper} (hinfo : c.reg.keepers.infos.get who = some info)
    (hready : Matured c who) : releasable c who = info.stake := by
  obtain ⟨stored, release, hstored, hrelease, hle⟩ := hready
  have hsame : stored = info := Option.some.inj (hstored.symm.trans hinfo)
  subst hsame
  simp [releasable, bondOf_of_info hstored, hrelease, hle]

theorem releasable_pos (hsound : c.Sound host) (hready : Matured c who) : 0 < releasable c who := by
  obtain ⟨info, release, hinfo, hrelease, hle⟩ := hready
  rw [releasable_of_matured hinfo ⟨info, release, hinfo, hrelease, hle⟩]
  exact (hsound.keepers.stakes _ _ _ (bondOf_of_info hinfo)).1

theorem releaseStake_reg {amount : ℤ} (h : releaseStake host c keeper = .ok (amount, c')) :
    c'.reg = { c.reg with keepers := c.reg.keepers.removeKeeper keeper } := by
  obtain ⟨info, release, paid, -, -, -, hpaid, -, rfl⟩ := releaseStake_eq_ok.mp h
  rw [Chain.payOut_frame hpaid]
  rfl

theorem matured_after {amount : ℤ} (h : releaseStake host c keeper = .ok (amount, c')) :
    Matured c' who ↔ who ≠ keeper ∧ Matured c who := by
  have hinfos : c'.reg.keepers.infos.get who =
      if who = keeper then none else c.reg.keepers.infos.get who := by
    rw [releaseStake_reg h]
    exact Store.get_remove _ _ _
  unfold Matured
  rw [hinfos, (releaseStake_keepersOnly h).1.now]
  split
  next heq => simp [heq]
  next hne => simp [hne]

/-! ## The list -/

theorem SettledOnce.nil : SettledOnce host c [] [] c := by
  refine ⟨?_, fun who _ => ⟨rfl, rfl⟩, rfl, ?_, rfl, ?_⟩
  · intro who hwho
    cases hwho
  · simp
  · intro i who hget
    cases hget

/-- Putting one key's term to zero takes it out of a sum. -/
theorem sum_insert_split {A M : Type} [DecidableEq A] [AddCommMonoid M] (f : A → M) (key : A)
    (s : Finset A) : ∑ x ∈ insert key s, f x = f key + ∑ x ∈ s, if x = key then 0 else f x := by
  have hrest : ∑ x ∈ s, (if x = key then 0 else f x) = ∑ x ∈ s.erase key, f x := by
    rw [← Finset.filter_ne', Finset.sum_filter]
    exact Finset.sum_congr rfl fun x _ => (ite_not _ _ _).symm
  rw [hrest, ← Finset.erase_insert_eq_erase,
    Finset.add_sum_erase _ _ (Finset.mem_insert_self key s)]

section Cons

variable {middle : Chain World}

theorem SettledOnce.release (hone : releaseStake host c keeper = .ok (releasable c keeper, middle))
    (hpaid : middle.balances = c.balances +
      movedBy c.reg.config.stakeToken host.registry keeper (releasable c keeper))
    (hrest : SettledOnce host middle keepers amounts c') :
    SettledOnce host c (keeper :: keepers) (releasable c keeper :: amounts) c' := by
  have hreg := releaseStake_reg hone
  have hinfos : ∀ who, middle.reg.keepers.infos.get who =
      if who = keeper then none else c.reg.keepers.infos.get who := by
    intro who
    rw [hreg]
    exact Store.get_remove _ _ _
  have hrecents : ∀ who, middle.reg.keepers.recents.get who =
      if who = keeper then none else c.reg.keepers.recents.get who := by
    intro who
    rw [hreg]
    exact Store.get_remove _ _ _
  have hready : Matured c keeper := by
    obtain ⟨info, release, -, hinfo, hrelease, hle, -⟩ := releaseStake_eq_ok.mp hone
    exact ⟨info, release, hinfo, hrelease, hle⟩
  refine ⟨?_, ?_, ?_, ?_, ?_, ?_⟩
  · intro who hlisted hmatured
    by_cases heq : who = keeper
    · -- It stays removed, because it is not ready a second time.
      have hgone := hrest.kept who fun h => (matured_after hone).mp h.2 |>.1 heq
      rw [hinfos, hrecents, if_pos heq, if_pos heq] at hgone
      exact hgone
    · have hlater : who ∈ keepers := (List.mem_cons.mp hlisted).resolve_left heq
      exact hrest.removed who hlater ((matured_after hone).mpr ⟨heq, hmatured⟩)
  · intro who hnot
    have hne : who ≠ keeper := by
      rintro rfl
      exact hnot ⟨List.mem_cons_self, hready⟩
    have hkept := hrest.kept who fun h =>
      hnot ⟨List.mem_cons_of_mem _ h.1, ((matured_after hone).mp h.2).2⟩
    rw [hinfos, hrecents, if_neg hne, if_neg hne] at hkept
    exact hkept
  · have hframe := hrest.rest
    rw [hreg] at hframe
    exact hframe
  -- What is released later is what was releasable before, without this keeper.
  · have hafter := hrest.paid
    rw [hpaid, hreg] at hafter
    rw [hafter, List.toFinset_cons, sum_insert_split, add_assoc]
    congr 2
    apply Finset.sum_congr rfl
    intro who _
    rw [releasable_after hone]
    split
    · exact movedBy_zero
    · rfl
  · rw [List.length_cons, List.length_cons, hrest.length]
  · intro i who hget
    -- The first occurrence of a keeper reports its stake, later ones report zero.
    cases i with
    | zero =>
        cases hget
        simp
    | succ i =>
        rw [List.getElem?_cons_succ] at hget ⊢
        rw [hrest.reported i who hget, releasable_after hone, List.take_succ_cons]
        by_cases heq : who = keeper
        · simp [heq]
        · simp [heq]

theorem SettledOnce.skip (hearly : ¬ Matured c keeper) (hzero : releasable c keeper = 0)
    (hrest : SettledOnce host c keepers amounts c') :
    SettledOnce host c (keeper :: keepers) (0 :: amounts) c' := by
  refine ⟨?_, ?_, hrest.rest, ?_, ?_, ?_⟩
  · intro who hlisted hmatured
    have hne : who ≠ keeper := by
      rintro rfl
      exact hearly hmatured
    exact hrest.removed who ((List.mem_cons.mp hlisted).resolve_left hne) hmatured
  · intro who hnot
    exact hrest.kept who fun h => hnot ⟨List.mem_cons_of_mem _ h.1, h.2⟩
  · rw [hrest.paid, List.toFinset_cons, Finset.sum_insert_zero]
    rw [hzero]
    exact movedBy_zero
  · rw [List.length_cons, List.length_cons, hrest.length]
  · intro i who hget
    cases i with
    | zero =>
        cases hget
        simp [hzero]
    | succ i =>
        rw [List.getElem?_cons_succ] at hget ⊢
        rw [hrest.reported i who hget, List.take_succ_cons]
        by_cases heq : who = keeper
        · simp [heq, hzero]
        · simp [heq]

end Cons

/-- A keeper whose release is rejected was not ready. -/
theorem not_matured_of_rejected {reason : Error}
    (h : releaseStake host c keeper = .error (.rejected reason)) : ¬ Matured c keeper := by
  rintro ⟨info, release, hinfo, hrelease, hle⟩
  have hready : ¬ c.now < release := Nat.not_lt.mpr hle
  simp only [releaseStake, hinfo, hrelease, okOr, raise, rejectIf, hready, if_false, bind,
    Except.bind] at h
  split at h
  next why hpaid =>
    rw [payOut_eq_error hpaid] at h
    cases h
  next => cases h

theorem releasable_of_not_matured (h : ¬ Matured c who) : releasable c who = 0 := by
  unfold releasable KeeperTable.bondOf
  split
  next stake release hbond =>
    obtain ⟨info, hinfo, hfields⟩ := Option.map_eq_some_iff.mp hbond
    have hrelease : info.unbondingAt = some release := (Prod.mk.inj hfields).2
    rw [if_neg fun hle => h ⟨info, release, hinfo, hrelease, hle⟩]
  next => rfl

/-- A release that succeeds pays what is releasable. -/
theorem releaseStake_pays (hkeepers : c.reg.keepers.Sound host.registry) {amount : ℤ}
    (h : releaseStake host c keeper = .ok (amount, c')) :
    amount = releasable c keeper ∧ c'.balances = c.balances +
      movedBy c.reg.config.stakeToken host.registry keeper (releasable c keeper) := by
  obtain ⟨info, release, paid, hinfo, hrelease, hle, hpaid, rfl, rfl⟩ := releaseStake_eq_ok.mp h
  have hworth := releasable_of_matured hinfo ⟨info, release, hinfo, hrelease, hle⟩
  have hnonneg := (hkeepers.stakes _ _ _ (bondOf_of_info hinfo)).1.le
  rw [hworth, Chain.payOut_eq_ok hnonneg hpaid]
  exact ⟨rfl, rfl⟩

/-- A list of releases settles what it lists. -/
theorem releaseStakes_settledOnce (hkeepers : c.reg.keepers.Sound host.registry)
    (h : releaseStakes host keepers c = .ok (amounts, c')) :
    SettledOnce host c keepers amounts c' := by
  induction keepers generalizing c amounts with
  | nil =>
      simp only [releaseStakes, Except.ok.injEq, Prod.mk.injEq] at h
      obtain ⟨rfl, rfl⟩ := h
      exact SettledOnce.nil
  | cons keeper rest ih =>
      unfold releaseStakes at h
      cases hone : releaseStake host c keeper with
      | ok released =>
          obtain ⟨amount, middle⟩ := released
          simp only [hone, bind_eq_ok, Prod.exists, Except.ok.injEq, pure_eq_ok, Prod.mk.injEq] at h
          obtain ⟨_, _, ⟨rfl, rfl⟩, others, last, hrest, rfl, rfl⟩ := h
          obtain ⟨rfl, hpaid⟩ := releaseStake_pays hkeepers hone
          exact (ih (releaseStake_sound hone hkeepers) hrest).release hone hpaid
      | error reason =>
          cases reason with
          | rejected reason =>
              simp only [hone, bind_eq_ok, Prod.exists, Except.ok.injEq, pure_eq_ok,
                Prod.mk.injEq] at h
              obtain ⟨_, _, ⟨rfl, rfl⟩, others, last, hrest, rfl, rfl⟩ := h
              have hearly := not_matured_of_rejected hone
              exact (ih hkeepers hrest).skip hearly (releasable_of_not_matured hearly)
          | trap reason =>
              simp only [hone, bind_eq_ok, reduceCtorEq, false_and, exists_false] at h

/-- What a list settles depends only on who is listed. -/
theorem SettledOnce.unique {keepers' : List Address} {amounts' : List ℤ} {c'' : Chain World}
    (h : SettledOnce host c keepers amounts c') (h' : SettledOnce host c keepers' amounts' c'')
    (hsame : ∀ who, who ∈ keepers' ↔ who ∈ keepers) :
    c''.reg = c'.reg ∧ c''.balances = c'.balances := by
  have hrecords : ∀ who, c''.reg.keepers.infos.get who = c'.reg.keepers.infos.get who ∧
      c''.reg.keepers.recents.get who = c'.reg.keepers.recents.get who := by
    intro who
    by_cases hboth : who ∈ keepers ∧ Matured c who
    · obtain ⟨hinfo, hrecent⟩ := h.removed who hboth.1 hboth.2
      obtain ⟨hinfo', hrecent'⟩ := h'.removed who ((hsame who).mpr hboth.1) hboth.2
      exact ⟨hinfo'.trans hinfo.symm, hrecent'.trans hrecent.symm⟩
    · obtain ⟨hinfo, hrecent⟩ := h.kept who hboth
      obtain ⟨hinfo', hrecent'⟩ :=
        h'.kept who fun hlisted => hboth ⟨(hsame who).mp hlisted.1, hlisted.2⟩
      exact ⟨hinfo'.trans hinfo.symm, hrecent'.trans hrecent.symm⟩
  have hinfos : c''.reg.keepers.infos = c'.reg.keepers.infos := by
    ext1 who
    exact (hrecords who).1
  have hrecents : c''.reg.keepers.recents = c'.reg.keepers.recents := by
    ext1 who
    exact (hrecords who).2
  have hlisted : keepers'.toFinset = keepers.toFinset := by
    ext who
    rw [List.mem_toFinset, List.mem_toFinset, hsame]
  refine ⟨?_, ?_⟩
  · rw [h'.rest, h.rest, hinfos, hrecents]
  · rw [h'.paid, h.paid, hlisted]

/-! ## One by one -/

/-- `withdrawStake` for every listed keeper in turn. -/
def withdrawEach (ctx : Ctx) (keepers : List Address) : List (Action World) :=
  keepers.map fun keeper => .call ctx (.keeper (.withdrawStake keeper))

/-- The list is settled by its members' own withdrawals. -/
theorem releaseStakes_eq_each (hpays : PaysOut host) (hsolvent : Solvent host c)
    (hsigned : ∀ who ∈ keepers, who ∈ ctx.signers) :
    ∃ amounts, releaseStakes host keepers c =
      .ok (amounts, (machine host).run c (withdrawEach ctx keepers)) := by
  induction keepers generalizing c with
  | nil => exact ⟨[], rfl⟩
  | cons keeper rest ih =>
      have hrest : ∀ who ∈ rest, who ∈ ctx.signers := fun who hwho =>
        hsigned who (List.mem_cons_of_mem _ hwho)
      have hcons : (machine host).run c (withdrawEach ctx (keeper :: rest)) =
          (machine host).run (step host c (.call ctx (.keeper (.withdrawStake keeper))))
            (withdrawEach ctx rest) := rfl
      rw [hcons]
      rcases releaseStake_cases hpays hsolvent keeper with ⟨middle, hone, -⟩ | ⟨reason, hone, -⟩
      · have hother : keeper ≠ host.registry := by
          obtain ⟨info, release, -, hinfo, -⟩ := releaseStake_eq_ok.mp hone
          exact hsolvent.sound.keeper_ne hinfo
        have hstep : step host c (.call ctx (.keeper (.withdrawStake keeper))) = middle :=
          step_call_ok (Result.chain_eq_ok.mpr ⟨_, withdrawStake_eq_ok.mpr
            ⟨⟨hsigned keeper List.mem_cons_self, hother⟩, hone⟩⟩)
        obtain ⟨amounts, hlist⟩ := ih (releaseStake_solvent hsolvent hone) hrest
        rw [hstep]
        refine ⟨releasable c keeper :: amounts, ?_⟩
        simp [releaseStakes, hone, hlist, bind, Except.bind, pure, Except.pure]
      · have hstep : step host c (.call ctx (.keeper (.withdrawStake keeper))) = c := by
          rcases step_call_cases host c ctx (.keeper (.withdrawStake keeper)) with ⟨hcall, -⟩ |
            ⟨hsame, -⟩
          · obtain ⟨amount, hcall⟩ := Result.chain_eq_ok.mp hcall
            rw [(withdrawStake_eq_ok.mp hcall).2] at hone
            cases hone
          · exact hsame
        obtain ⟨amounts, hlist⟩ := ih hsolvent hrest
        rw [hstep]
        refine ⟨0 :: amounts, ?_⟩
        simp [releaseStakes, hone, hlist, bind, Except.bind, pure, Except.pure]

theorem releaseStakes_settles (hpays : PaysOut host) (hsolvent : Solvent host c)
    (hsigned : ∀ who ∈ keepers, who ∈ ctx.signers) :
    ∃ amounts, releaseStakes host keepers c =
        .ok (amounts, (machine host).run c (withdrawEach ctx keepers)) ∧
      SettledOnce host c keepers amounts ((machine host).run c (withdrawEach ctx keepers)) := by
  obtain ⟨amounts, hlist⟩ := releaseStakes_eq_each hpays hsolvent hsigned
  exact ⟨amounts, hlist, releaseStakes_settledOnce hsolvent.sound.keepers hlist⟩

/-- Settling a list of keepers is their withdrawals in turn, pays each of them once, and leaves
the same registry and balances in any order. -/
theorem withdrawStakes_settle (hpays : PaysOut host) (hreach : Reachable host c)
    (hsize : keepers ≠ [] ∧ keepers.length ≤ maxBatch)
    (hsigned : ∀ who ∈ keepers, who ∈ ctx.signers) :
    ∃ amounts, withdrawStakes host c keepers =
        .ok (amounts, (machine host).run c (withdrawEach ctx keepers)) ∧
      SettledOnce host c keepers amounts ((machine host).run c (withdrawEach ctx keepers)) ∧
      ∀ keepers', keepers'.Perm keepers → ∃ amounts' c'',
        withdrawStakes host c keepers' = .ok (amounts', c'') ∧
          SettledOnce host c keepers' amounts' c'' ∧
          c''.reg = ((machine host).run c (withdrawEach ctx keepers)).reg ∧
          c''.balances = ((machine host).run c (withdrawEach ctx keepers)).balances := by
  obtain ⟨amounts, hlist, hsettled⟩ := releaseStakes_settles hpays hreach.solvent hsigned
  refine ⟨amounts, withdrawStakes_eq_ok.mpr ⟨hsize, hlist⟩, hsettled, ?_⟩
  intro keepers' hperm
  have hsigned' : ∀ who ∈ keepers', who ∈ ctx.signers :=
    fun who hwho => hsigned who (hperm.mem_iff.mp hwho)
  obtain ⟨amounts', hlist', hsettled'⟩ := releaseStakes_settles hpays hreach.solvent hsigned'
  have hsize' : keepers' ≠ [] ∧ keepers'.length ≤ maxBatch := by
    refine ⟨?_, hperm.length_eq.trans_le hsize.2⟩
    rintro rfl
    exact hsize.1 hperm.nil_eq.symm
  exact ⟨amounts', _, withdrawStakes_eq_ok.mpr ⟨hsize', hlist'⟩, hsettled',
    hsettled.unique hsettled' fun who => hperm.mem_iff⟩

/-- After its first run the keeper leaves, and its unbonding ends. -/
def leavingRun : List (Action Unit) :=
  firstRun ++ [.call ⟨[⟨4⟩]⟩ (.keeper (.beginUnbonding ⟨4⟩)), .advance 3000000]

/-- It is listed twice, beside an address that never staked. -/
theorem withdrawStakes_settle_leaving :
    let c := (machine plainHost).run (deployment ⟨3⟩ 1000 100 10 1000) leavingRun
    ∃ amounts c', withdrawStakes plainHost c [⟨4⟩, ⟨9⟩, ⟨4⟩] = .ok (amounts, c') ∧
      SettledOnce plainHost c [⟨4⟩, ⟨9⟩, ⟨4⟩] amounts c' := by
  intro c
  have hadmissible : (machine plainHost).Along (Admissible plainHost)
      (deployment ⟨3⟩ 1000 100 10 1000)
      leavingRun :=
    Machine.along_append.mpr
      ⟨firstRun_admissible _, trivial, (by decide : 3000000 ≤ u64Max), trivial⟩
  have hreach : Reachable plainHost c :=
    ⟨_, _, deployment_deployed ⟨3⟩ 10 1000 (by decide) (by decide), hadmissible, rfl⟩
  have hsigned : ∀ who ∈ [⟨4⟩, ⟨9⟩, ⟨4⟩], who ∈ (⟨[⟨4⟩, ⟨9⟩]⟩ : Ctx).signers := by
    simp
  obtain ⟨amounts, hcall, hsettled, -⟩ :=
    withdrawStakes_settle plainHost_paysOut hreach ⟨by simp, by decide⟩ hsigned
  exact ⟨amounts, _, hcall, hsettled⟩

example :
    ((withdrawStakes plainHost
      ((machine plainHost).run (deployment ⟨3⟩ 1000 100 10 1000) leavingRun)
    [⟨4⟩, ⟨9⟩, ⟨4⟩]).toOption.map Prod.fst) = some [100, 0, 0] := by decide

end SoroCron
