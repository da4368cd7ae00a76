import SoroCron.Contracts.CompositeResolver

/-! # Combined resolvers answer as combined

Whatever composites rest on whatever others, each of them answers the conjunction or disjunction
of what its own sub-resolvers would answer if they were asked directly. None of them is ever true
only because it rests on itself, and a change of one composite changes nothing but the answers of
those built on it.
-/

namespace SoroCron.CompositeResolver

open Outcome Grounding

variable {composites composites' : Composites} {answers : Answers} {jobId : JobId}
  {resolver address : Address}
  {composite : Composite}

def Combination.rule (combination : Combination) : Rule Address :=
  match combination.mode with
  | .all => .all combination.resolvers
  | .any => .any combination.resolvers

theorem Combination.rule_holds (combination : Combination) (holds : Address → Bool) :
    combination.rule.Holds (holds · = true) ↔ combination.shouldRun holds = true := by
  unfold rule shouldRun
  cases combination.mode with
  | all => exact List.all_eq_true.symm
  | any => exact List.any_eq_true.symm

theorem Combination.parts_rule (combination : Combination) :
    combination.rule.parts = combination.resolvers := by
  unfold rule
  cases combination.mode with
  | all | any => rfl

/-- What each contract's answer is made of. -/
def rules (composites : Composites) (answers : Answers) (jobId : JobId) (resolver : Address) :
    Rule Address :=
  match composites.get resolver with
  | none => .given (answers resolver jobId = some true)
  | some composite => composite.combination.rule

theorem rules_none (hnone : composites.get resolver = none) :
    rules composites answers jobId resolver = .given (answers resolver jobId = some true) := by
  rw [rules, hnone]

theorem rules_some (hfound : composites.get resolver = some composite) :
    rules composites answers jobId resolver = composite.combination.rule := by
  rw [rules, hfound]

theorem ask_iff (busy : List Address) : ask composites answers jobId busy resolver = true ↔
    resolver ∉ busy ∧
      (rules composites answers jobId resolver).Holds
        (ask composites answers jobId (resolver :: busy) · = true) := by
  rw [ask]
  split
  next hbusy => simp [hbusy]
  next hfree =>
    split
    next hnone =>
      rw [rules_none hnone]
      simp [hfree, Rule.Holds]
    next composite hfound =>
      rw [rules_some hfound, Combination.rule_holds]
      exact (and_iff_right hfree).symm

/-- An answer is true for a reason that does not go in circles. -/
theorem ask_grounded (busy : List Address) : ask composites answers jobId busy resolver = true ↔
    Grounded (rules composites answers jobId) (· ∈ busy) resolver := by
  refine search_iff composites.keys ?_ (fun busy name => ask_iff busy) busy resolver
  intro name hname
  exact ⟨_, rules_none (Store.notMem_keys.mp hname)⟩

/-! ## Direct answers -/

theorem ask_direct : ask composites answers jobId [] resolver = true ↔
    Grounded (rules composites answers jobId) nothing resolver := by
  have hnothing : (fun name : Address => name ∈ ([] : List Address)) = nothing := by
    funext name
    simp [nothing]
  rw [ask_grounded, hnothing]

/-- A direct answer is made of direct answers, although the sub-resolvers were asked on the way. -/
theorem ask_composite (hfound : composites.get resolver = some composite) :
    ask composites answers jobId [] resolver =
      composite.combination.shouldRun (ask composites answers jobId []) := by
  rw [Bool.eq_iff_iff, ask_direct, grounded_rule, rules_some hfound, ← Combination.rule_holds]
  simp only [ask_direct]

theorem ask_other (hnone : composites.get resolver = none) :
    ask composites answers jobId [] resolver = decide (answers resolver jobId = some true) := by
  rw [Bool.eq_iff_iff, ask_direct, grounded_rule, rules_none hnone]
  exact Iff.rfl

/-- A true answer holds in whatever agrees with all composites and with the answers of the
others. -/
theorem ask_least (holds : Address → Bool)
    (hothers : ∀ resolver, composites.get resolver = none → answers resolver jobId = some true →
      holds resolver = true)
    (hagrees : ∀ resolver composite, composites.get resolver = some composite →
      composite.combination.shouldRun holds = true → holds resolver = true)
    (htrue : ask composites answers jobId [] resolver = true) : holds resolver = true := by
  refine (ask_direct.mp htrue).least (P := (holds · = true)) ?_
  intro name hname
  cases hfound : composites.get name with
  | none =>
      rw [rules_none hfound] at hname
      exact hothers name hfound (of_decide_eq_true hname)
  | some composite =>
      rw [rules_some hfound, Combination.rule_holds] at hname
      exact hagrees name composite hfound hname

/-- More true answers of others never make a composite's answer false. -/
theorem ask_more {answers' : Answers}
    (hmore : ∀ resolver, answers resolver jobId = some true → answers' resolver jobId = some true)
    (htrue : ask composites answers jobId [] resolver = true) :
    ask composites answers' jobId [] resolver = true := by
  refine ask_least (ask composites answers' jobId []) ?_ ?_ htrue
  · intro name hnone hanswer
    rw [ask_other hnone]
    exact decide_eq_true (hmore name hanswer)
  · intro name composite hfound hholds
    rwa [ask_composite hfound]

/-! ## Changes -/

/-- A contract is built on its sub-resolvers, on theirs, and so on. -/
def BuiltOn (composites : Composites) : Address → Address → Prop :=
  Relation.ReflTransGen fun resolver sub =>
    ∃ composite, composites.get resolver = some composite ∧ sub ∈ composite.combination.resolvers

theorem restsOn_rules : RestsOn (rules composites answers jobId) = BuiltOn composites := by
  unfold RestsOn BuiltOn
  congr 1
  funext resolver sub
  cases hfound : composites.get resolver with
  | none =>
      rw [rules_none hfound]
      simp [Rule.parts]
  | some composite =>
      rw [rules_some hfound, Combination.parts_rule]
      simp

theorem set_ok {ctx : Ctx} {mode : Mode} {resolvers : List Address}
    (hset : set composites ctx address mode resolvers = .ok composites') :
    ∃ composite combination, composites.get address = some composite ∧
      composite.admin ∈ ctx.signers ∧
      store mode resolvers = .ok combination ∧
        composites' = composites.set address { composite with combination } := by
  simp only [set, bind_eq_ok, orTrap_eq_ok, require_eq_ok, exists_unit, raise_eq_ok,
    pure_eq_ok] at hset
  obtain ⟨composite, hfound, hsigned, combination, hstored, rfl⟩ := hset
  exact ⟨composite, combination, hfound, hsigned, hstored, rfl⟩

theorem deploy_ok {admin : Address} {mode : Mode} {resolvers : List Address}
    (hdeploy : deploy composites address admin mode resolvers = .ok composites') :
    ∃ combination, composites.get address = none ∧ store mode resolvers = .ok combination ∧
      composites' = composites.set address { admin, combination } := by
  simp only [deploy, bind_eq_ok, require_eq_ok, exists_unit, raise_eq_ok, pure_eq_ok] at hdeploy
  obtain ⟨hnew, combination, hstored, rfl⟩ := hdeploy
  exact ⟨combination, by simpa [Store.has] using hnew, hstored, rfl⟩

/-- A change at one address changes only what is built on it. -/
theorem ask_set (composite : Composite) (happart : ¬ BuiltOn composites resolver address) :
    ask (composites.set address composite) answers jobId [] resolver =
      ask composites answers jobId [] resolver := by
  rw [Bool.eq_iff_iff, ask_direct, ask_direct]
  refine grounded_congr ?_
  intro other hother
  rw [restsOn_rules] at hother
  have hne : other ≠ address := by
    rintro rfl
    exact happart hother
  rw [rules, rules, Store.get_set_of_ne _ _ hne]

/-- Every composite answers its own combination of the direct answers of its sub-resolvers; these
answers are the least ones, so that none is true only because of itself, and more true answers of
others make none false; only its admin changes a composite, and nothing else with it. A change, or a
new composite, changes only the answers of what is built on it. -/
theorem combined_answers (composites : Composites) (answers : Answers) (jobId : JobId) :
    let answer := ask composites answers jobId []
    (∀ resolver, composites.get resolver = none →
      answer resolver = decide (answers resolver jobId = some true)) ∧
    (∀ resolver composite, composites.get resolver = some composite →
      answer resolver = composite.combination.shouldRun answer) ∧
    (∀ holds : Address → Bool,
      (∀ resolver, composites.get resolver = none → answers resolver jobId = some true →
        holds resolver = true) →
      (∀ resolver composite, composites.get resolver = some composite →
        composite.combination.shouldRun holds = true → holds resolver = true) →
      ∀ resolver, answer resolver = true → holds resolver = true) ∧
    (∀ answers' : Answers,
      (∀ resolver, answers resolver jobId = some true → answers' resolver jobId = some true) →
      ∀ resolver, answer resolver = true → ask composites answers' jobId [] resolver = true) ∧
    (∀ ctx address mode resolvers composites',
      set composites ctx address mode resolvers = .ok composites' →
      ∃ composite combination, composites.get address = some composite ∧
        composite.admin ∈ ctx.signers ∧
        store mode resolvers = .ok combination ∧
        composites' = composites.set address { composite with combination }) ∧
    (∀ address admin mode resolvers composites',
      deploy composites address admin mode resolvers = .ok composites' →
      ∃ combination, composites.get address = none ∧ store mode resolvers = .ok combination ∧
        composites' = composites.set address { admin, combination }) ∧
    (∀ ctx address admin mode resolvers composites',
      set composites ctx address mode resolvers = .ok composites' ∨
        deploy composites address admin mode resolvers = .ok composites' →
      ∀ resolver, ¬ BuiltOn composites resolver address →
        ask composites' answers jobId [] resolver = answer resolver) := by
  intro answer
  refine ⟨fun _ hnone => ask_other hnone, fun _ _ hfound => ask_composite hfound, ?_, ?_,
    ?_, ?_, ?_⟩
  · intro holds hothers hagrees resolver htrue
    exact ask_least holds hothers hagrees htrue
  · intro answers' hmore resolver htrue
    exact ask_more hmore htrue
  · intro ctx address mode resolvers composites' hset
    exact set_ok hset
  · intro address admin mode resolvers composites' hdeploy
    exact deploy_ok hdeploy
  · rintro ctx address admin mode resolvers composites' (hset | hdeploy) resolver happart
    · obtain ⟨composite, combination, -, -, -, rfl⟩ := set_ok hset
      exact ask_set _ happart
    · obtain ⟨combination, -, -, rfl⟩ := deploy_ok hdeploy
      exact ask_set _ happart

end SoroCron.CompositeResolver
