import Mathlib.Data.Finset.Card
import Mathlib.Data.Finset.Insert
import Mathlib.Logic.Relation

/-! # Answers that rest on other answers

Every name has a rule: a fixed answer, or the conjunction or disjunction of what other names
answer, perhaps in circles. A name is grounded if it holds for a reason without circles. A search
that takes every name it is still busy with as false finds just that, and the grounded names are
the least answers that agree with all rules.
-/

namespace Grounding

inductive Rule (K : Type) where
  | given (holds : Bool)
  | all (parts : List K)
  | any (parts : List K)

def Rule.parts {K : Type} : Rule K → List K
  | .given _ => []
  | .all parts | .any parts => parts

/-- A rule holds, given what holds of its parts. -/
def Rule.Holds {K : Type} (holds : K → Prop) : Rule K → Prop
  | .given answer => answer = true
  | .all parts => ∀ part ∈ parts, holds part
  | .any parts => ∃ part ∈ parts, holds part

/-- A name holds for a reason in which no name of `barred` occurs. -/
inductive Grounded {K : Type} (rules : K → Rule K) (barred : K → Prop) : K → Prop
  | given {name : K} (hfree : ¬ barred name) (hrule : rules name = .given true) :
      Grounded rules barred name
  | all {name : K} {parts : List K} (hfree : ¬ barred name) (hrule : rules name = .all parts)
      (hparts : ∀ part ∈ parts, Grounded rules barred part) : Grounded rules barred name
  | any {name part : K} {parts : List K} (hfree : ¬ barred name) (hrule : rules name = .any parts)
      (hmem : part ∈ parts) (hpart : Grounded rules barred part) : Grounded rules barred name

variable {K : Type} {rules : K → Rule K} {barred : K → Prop} {name : K}

theorem Rule.Holds.mono {holds holds' : K → Prop} {rule : Rule K} (h : rule.Holds holds)
    (hmono : ∀ part, holds part → holds' part) : rule.Holds holds' := by
  cases rule with
  | given answer => exact h
  | all parts => exact fun part hmem => hmono part (h part hmem)
  | any parts =>
      obtain ⟨part, hmem, hpart⟩ := h
      exact ⟨part, hmem, hmono part hpart⟩

namespace Grounded

theorem free (h : Grounded rules barred name) : ¬ barred name := by
  cases h with
  | given hfree | all hfree | any hfree => exact hfree

theorem of_rule (hfree : ¬ barred name) (hholds : (rules name).Holds (Grounded rules barred)) :
    Grounded rules barred name := by
  cases hrule : rules name with
  | given answer =>
      rw [hrule] at hholds
      exact .given hfree (hrule.trans (congrArg Rule.given hholds))
  | all parts =>
      rw [hrule] at hholds
      exact .all hfree hrule hholds
  | any parts =>
      rw [hrule] at hholds
      obtain ⟨part, hmem, hpart⟩ := hholds
      exact .any hfree hrule hmem hpart

theorem mono {barred' : K → Prop} (h : Grounded rules barred name)
    (hmono : ∀ other, barred' other → barred other) : Grounded rules barred' name := by
  induction h with
  | given hfree hrule => exact .given (fun hbarred => hfree (hmono _ hbarred)) hrule
  | all hfree hrule _ ih => exact .all (fun hbarred => hfree (hmono _ hbarred)) hrule ih
  | any hfree hrule hmem _ ih => exact .any (fun hbarred => hfree (hmono _ hbarred)) hrule hmem ih

/-- A reason can do without a name that has none without itself. -/
theorem without {other : K} (h : Grounded rules barred name) (hother : ¬ barred other)
    (hnone : ¬ (rules other).Holds (Grounded rules fun name => name = other ∨ barred name)) :
    Grounded rules (fun name => name = other ∨ barred name) name := by
  induction h with
  | given hfree hrule =>
      refine .given ?_ hrule
      rintro (rfl | hbarred)
      · exact hnone (by rw [hrule]; rfl)
      · exact hfree hbarred
  | all hfree hrule _ ih =>
      refine .all ?_ hrule ih
      rintro (rfl | hbarred)
      · exact hnone (by rw [hrule]; exact ih)
      · exact hfree hbarred
  | any hfree hrule hmem _ ih =>
      refine .any ?_ hrule hmem ih
      rintro (rfl | hbarred)
      · exact hnone (by rw [hrule]; exact ⟨_, hmem, ih⟩)
      · exact hfree hbarred

/-- A name that holds has a reason that does not come back to it. -/
theorem rule (h : Grounded rules barred name) :
    (rules name).Holds (Grounded rules fun other => other = name ∨ barred other) := by
  by_contra hnone
  exact (h.without h.free hnone).free (.inl rfl)

end Grounded

theorem grounded_iff : Grounded rules barred name ↔
    ¬ barred name ∧ (rules name).Holds
      (Grounded rules fun other => other = name ∨ barred other) := by
  constructor
  · intro h
    exact ⟨h.free, h.rule⟩
  · rintro ⟨hfree, hholds⟩
    exact .of_rule hfree (hholds.mono fun part hpart => hpart.mono fun _ hbarred => .inr hbarred)

/-! ## The least answers -/

section Least

/-- Nothing is barred. -/
def nothing : K → Prop := fun _ => False

theorem grounded_rule : Grounded rules nothing name ↔
    (rules name).Holds (Grounded rules nothing) := by
  constructor
  · intro h
    exact h.rule.mono fun part hpart => hpart.mono fun _ hbarred => hbarred.elim
  · intro hholds
    exact .of_rule (fun hbarred => hbarred) hholds

/-- Whatever agrees with the rules holds of every name that is grounded. -/
theorem Grounded.least {P : K → Prop} (hagrees : ∀ name, (rules name).Holds P → P name)
    (h : Grounded rules barred name) : P name := by
  induction h with
  | given _ hrule =>
      refine hagrees _ ?_
      rw [hrule]
      rfl
  | all _ hrule _ ih =>
      refine hagrees _ ?_
      rw [hrule]
      exact ih
  | any _ hrule hmem _ ih =>
      refine hagrees _ ?_
      rw [hrule]
      exact ⟨_, hmem, ih⟩

/-- More answers ground more names. -/
theorem Grounded.more {rules' : K → Rule K} (h : Grounded rules barred name)
    (hmore : ∀ name, rules' name = rules name ∨ rules' name = .given true) :
    Grounded rules' barred name := by
  induction h with
  | given hfree hrule =>
      refine .given hfree ?_
      rcases hmore _ with hsame | htrue
      · exact hsame.trans hrule
      · exact htrue
  | all hfree hrule _ ih =>
      rcases hmore _ with hsame | htrue
      · exact .all hfree (hsame.trans hrule) ih
      · exact .given hfree htrue
  | any hfree hrule hmem _ ih =>
      rcases hmore _ with hsame | htrue
      · exact .any hfree (hsame.trans hrule) hmem ih
      · exact .given hfree htrue

end Least

/-! ## Other rules -/

section Same

/-- A name rests on another if the other is a part of its rule, or of the rule of a part, and so
on. -/
def RestsOn (rules : K → Rule K) : K → K → Prop :=
  Relation.ReflTransGen fun name part => part ∈ (rules name).parts

variable {rules' : K → Rule K}

theorem Grounded.within {S : K → Prop}
    (hparts : ∀ name, S name → ∀ part ∈ (rules name).parts, S part)
    (hsame : ∀ name, S name → rules' name = rules name) (h : Grounded rules barred name)
    (hname : S name) : Grounded rules' barred name := by
  induction h with
  | given hfree hrule => exact .given hfree ((hsame _ hname).trans hrule)
  | all hfree hrule _ ih =>
      refine .all hfree ((hsame _ hname).trans hrule) fun part hmem =>
        ih part hmem (hparts _ hname part ?_)
      rw [hrule]
      exact hmem
  | any hfree hrule hmem _ ih =>
      refine .any hfree ((hsame _ hname).trans hrule) hmem (ih (hparts _ hname _ ?_))
      rw [hrule]
      exact hmem

/-- Rules that a name does not rest on do not matter to it. -/
theorem grounded_congr (hsame : ∀ other, RestsOn rules name other → rules' other = rules other) :
    Grounded rules' barred name ↔ Grounded rules barred name := by
  have hparts : ∀ other, RestsOn rules name other →
      ∀ part ∈ (rules other).parts, RestsOn rules name part :=
    fun other hother part hmem => hother.tail hmem
  constructor
  · intro h
    refine h.within ?_ (fun other hother => (hsame other hother).symm) Relation.ReflTransGen.refl
    intro other hother
    rw [hsame other hother]
    exact hparts other hother
  · intro h
    exact h.within hparts hsame Relation.ReflTransGen.refl

end Same

/-! ## The search -/

section Search

variable [DecidableEq K] {inner : Finset K} {busy : List K}

/-- A search that goes on from a name has fewer names left. -/
theorem card_left_lt (hmem : name ∈ inner) (hfree : name ∉ busy) :
    (inner \ (name :: busy).toFinset).card < (inner \ busy.toFinset).card := by
  rw [List.toFinset_cons]
  refine Finset.card_lt_card (Finset.ssubset_iff_subset_ne.mpr ⟨?_, ?_⟩)
  · exact Finset.sdiff_subset_sdiff le_rfl (Finset.subset_insert _ _)
  · intro hsame
    have hleft : name ∈ inner \ busy.toFinset :=
      Finset.mem_sdiff.mpr ⟨hmem, fun hbusy => hfree (List.mem_toFinset.mp hbusy)⟩
    rw [← hsame, Finset.mem_sdiff] at hleft
    exact hleft.2 (Finset.mem_insert_self _ _)

/-- A search that refuses the names it is busy with finds what is grounded without them, if only
finitely many names rest on others. -/
theorem search_iff (inner : Finset K) {asks : List K → K → Prop}
    (hinner : ∀ name ∉ inner, ∃ answer, rules name = .given answer)
    (hasks : ∀ busy name, asks busy name ↔ name ∉ busy ∧ (rules name).Holds (asks (name :: busy)))
    (busy : List K) (name : K) : asks busy name ↔ Grounded rules (· ∈ busy) name := by
  induction hsize : (inner \ busy.toFinset).card using Nat.strong_induction_on
    generalizing busy name with
  | _ size ih =>
      rw [hasks, grounded_iff]
      refine and_congr_right fun hfree => ?_
      by_cases hmem : name ∈ inner
      · have hless : (inner \ (name :: busy).toFinset).card < size :=
          hsize ▸ card_left_lt hmem hfree
        have hparts : asks (name :: busy) = Grounded rules
            fun other => other = name ∨ other ∈ busy := by
          funext part
          rw [ih _ hless (name :: busy) part rfl]
          simp only [List.mem_cons]
        rw [hparts]
      · obtain ⟨answer, hrule⟩ := hinner name hmem
        rw [hrule]
        exact Iff.rfl

end Search

end Grounding
