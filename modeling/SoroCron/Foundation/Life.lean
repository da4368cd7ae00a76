import Mathlib.Order.Defs.PartialOrder
import SoroCron.Foundation.Machine

/-! # Lives

A life is a chain of labelled changes of one thing. When every step of a machine, seen from
that thing, is a life, a property of its past and its present that the changes and the
passing of time preserve holds along every run of the machine.
-/

variable {A P : Type}

/-- Several changes, one after the other. -/
inductive Life (Change : A → P → P → Prop) : List A → P → P → Prop where
  | nil (phase : P) : Life Change [] phase phase
  | cons {act : A} {acts : List A} {before middle after : P} (hchange : Change act before middle)
      (hrest : Life Change acts middle after) : Life Change (act :: acts) before after

namespace Life

variable {Change : A → P → P → Prop} {acts : List A} {before middle after : P}

theorem single {act : A} (hchange : Change act before after) : Life Change [act] before after :=
  .cons hchange (.nil after)

theorem append {first second : List A} (hfirst : Life Change first before middle)
    (hsecond : Life Change second middle after) : Life Change (first ++ second) before after := by
  induction hfirst with
  | nil => exact hsecond
  | cons hchange _ ih => exact .cons hchange (ih hsecond)

/-- What one change preserves, together with everything done so far, a life preserves. -/
theorem history {J : List A → P → Prop}
    (hchange : ∀ past act before after, J past before → Change act before after →
      J (past ++ [act]) after)
    (past : List A) (hstart : J past before) (h : Life Change acts before after) :
    J (past ++ acts) after := by
  induction h generalizing past with
  | nil => simpa using hstart
  | cons hone _ ih =>
      have hrest := ih _ (hchange past _ _ _ hstart hone)
      rwa [List.append_assoc] at hrest

/-- What every change preserves, a life preserves. -/
theorem invariant {I : P → Prop}
    (hchange : ∀ act before after, I before → Change act before after → I after)
    (hstart : I before) (h : Life Change acts before after) : I after :=
  history (J := fun _ => I) (fun _ => hchange) [] hstart h

/-- A life has a phase between any two of its parts. -/
theorem split {first second : List A} (h : Life Change (first ++ second) before after) :
    ∃ middle, Life Change first before middle ∧ Life Change second middle after := by
  induction first generalizing before with
  | nil => exact ⟨before, .nil before, h⟩
  | cons act rest ih =>
      cases h with
      | cons hone hrest =>
          obtain ⟨middle, hfirst, hsecond⟩ := ih hrest
          exact ⟨middle, .cons hone hfirst, hsecond⟩

/-- The phases around one change in the middle of a life. -/
theorem split_at {first second : List A} {act : A}
    (h : Life Change (first ++ act :: second) before after) :
    ∃ found left, Life Change first before found ∧ Change act found left ∧
      Life Change second left after := by
  obtain ⟨found, hfirst, hrest⟩ := h.split
  cases hrest with
  | cons hone hsecond => exact ⟨found, _, hfirst, hone, hsecond⟩

/-- What is known of everything done is known of each change. -/
theorem restrict {Q : A → Prop} (hall : ∀ act ∈ acts, Q act) (h : Life Change acts before after) :
    Life (fun act before after => Q act ∧ Change act before after) acts before after := by
  induction h with
  | nil => exact .nil _
  | cons hone _ ih =>
      exact .cons ⟨hall _ List.mem_cons_self, hone⟩
        (ih fun act hmem => hall act (List.mem_cons_of_mem _ hmem))

/-- A life seen through a view of its phases. -/
theorem map {Q : Type} {Seen : A → Q → Q → Prop} (view : P → Q)
    (hchange : ∀ act before after, Change act before after → Seen act (view before) (view after))
    (h : Life Change acts before after) : Life Seen acts (view before) (view after) := by
  induction h with
  | nil => exact .nil _
  | cons hone _ ih => exact .cons (hchange _ _ _ hone) ih

end Life

/-- A change that finds its thing as it was left some time ago. -/
def Timed {T : Type} [LE T] (Change : T → A → P → P → Prop) (act : A)
    (before after : T × P) : Prop :=
  before.1 ≤ after.1 ∧ Change after.1 act before.2 after.2

namespace Machine

variable {S A O T : Type} [Preorder T] {m : Machine S A O} {guard : S → A → Prop} {I : S → Prop}
  {s : S} {actions : List A}

/-- Follow one thing through a run: `view` shows its phase, `sift` picks what was done to it
out of what the machine emits, and `clock` is the time at which a step happens. -/
theorem lives_run {B : Type} {Change : T → B → P → P → Prop} (view : S → P) (clock : S → T)
    {sift : List O → List B} {J : List B → T → P → Prop}
    (hsift : ∀ first second, sift (first ++ second) = sift first ++ sift second)
    (hinvariant : ∀ s a, I s → guard s a → I (m.step s a))
    (hclock : ∀ s a, I s → guard s a → clock s ≤ clock (m.step s a))
    (hlife : ∀ s a, I s → guard s a →
      Life (Change (clock s)) (sift (m.out s a)) (view s) (view (m.step s a)))
    (hchange : ∀ past t act before after, J past t before → Change t act before after →
      J (past ++ [act]) t after)
    (hlater : ∀ past t t' phase, t ≤ t' → J past t phase → J past t' phase)
    (past : List B) (hstart : I s) (hpast : J past (clock s) (view s))
    (halong : m.Along guard s actions) :
    J (past ++ sift (m.outputs s actions)) (clock (m.run s actions)) (view (m.run s actions)) := by
  have hnil : sift [] = [] := by
    have hlength := congrArg List.length (hsift [] [])
    rw [List.append_nil, List.length_append] at hlength
    exact List.eq_nil_of_length_eq_zero (by omega)
  have hrun := history_run (m := m)
    (J := fun done s => I s ∧ J (past ++ sift done) (clock s) (view s)) ?_ []
    ⟨hstart, by rwa [hnil, List.append_nil]⟩ halong
  · rw [List.nil_append] at hrun
    exact hrun.2
  · rintro done s a ⟨hI, hJ⟩ hguard
    refine ⟨hinvariant s a hI hguard, ?_⟩
    rw [hsift, ← List.append_assoc]
    exact hlater _ _ _ _ (hclock s a hI hguard)
      ((hlife s a hI hguard).history
        (fun past act before after => hchange past _ act before after) _ hJ)

/-- Seen from one thing, a run is a life with a time for each change. -/
theorem life_run {B : Type} {Change : T → B → P → P → Prop} (view : S → P) (clock : S → T)
    {sift : List O → List B}
    (hsift : ∀ first second, sift (first ++ second) = sift first ++ sift second)
    (hinvariant : ∀ s a, I s → guard s a → I (m.step s a))
    (hclock : ∀ s a, I s → guard s a → clock s ≤ clock (m.step s a))
    (hlife : ∀ s a, I s → guard s a →
      Life (Change (clock s)) (sift (m.out s a)) (view s) (view (m.step s a)))
    (hstart : I s) (halong : m.Along guard s actions) :
    ∃ t ≤ clock (m.run s actions),
      Life (Timed Change) (sift (m.outputs s actions)) (clock s, view s)
      (t, view (m.run s actions)) := by
  let J : List B → T → P → Prop := fun past t phase =>
    ∃ t' ≤ t, Life (Timed Change) past (clock s, view s) (t', phase)
  have hlast : J ([] ++ sift (m.outputs s actions)) (clock (m.run s actions))
      (view (m.run s actions)) := by
    refine lives_run view clock hsift hinvariant hclock hlife ?_ ?_ [] hstart
      ⟨clock s, le_rfl, .nil _⟩ halong
    · rintro past t act before after ⟨t', hle, hpast⟩ hchange
      exact ⟨t, le_rfl, hpast.append (.single ⟨hle, hchange⟩)⟩
    · rintro past t later phase hle ⟨t', hbefore, hpast⟩
      exact ⟨t', le_trans hbefore hle, hpast⟩
  exact hlast

end Machine
