import Mathlib.Logic.Basic
import Mathlib.Data.List.Basic

/-! # Runs of a system

A machine takes actions one after another; a step can also emit outputs. A guard says
which actions a state admits, and a property of a run follows from what one admitted step
preserves, whether it speaks of the state reached, of the state and everything emitted on
the way, or of two states of one run.
-/

structure Machine (S A O : Type) where
  step : S → A → S
  out : S → A → List O

namespace Machine

variable {S A O : Type} (m : Machine S A O)

/-- The state after some actions. -/
def run (s : S) (actions : List A) : S := actions.foldl m.step s

/-- Everything emitted on the way, in order. -/
def outputs : S → List A → List O
  | _, [] => []
  | s, a :: rest => m.out s a ++ outputs (m.step s a) rest

/-- Every step of a run meets `guard`. -/
def Along (guard : S → A → Prop) : S → List A → Prop
  | _, [] => True
  | s, a :: rest => guard s a ∧ Along guard (m.step s a) rest

@[simp] theorem run_nil (s : S) : m.run s [] = s := rfl

@[simp] theorem run_cons (s : S) (a : A) (rest : List A) :
    m.run s (a :: rest) = m.run (m.step s a) rest := rfl

@[simp] theorem outputs_nil (s : S) : m.outputs s [] = [] := rfl

@[simp] theorem outputs_cons (s : S) (a : A) (rest : List A) :
    m.outputs s (a :: rest) = m.out s a ++ m.outputs (m.step s a) rest := rfl

@[simp] theorem along_nil (guard : S → A → Prop) (s : S) : m.Along guard s [] := trivial

@[simp] theorem along_cons {guard : S → A → Prop} {s : S} {a : A} {rest : List A} :
    m.Along guard s (a :: rest) ↔ guard s a ∧ m.Along guard (m.step s a) rest := Iff.rfl

theorem run_append (s : S) (first second : List A) :
    m.run s (first ++ second) = m.run (m.run s first) second :=
  List.foldl_append

theorem outputs_append (s : S) (first second : List A) :
    m.outputs s (first ++ second) = m.outputs s first ++ m.outputs (m.run s first) second := by
  induction first generalizing s with
  | nil => rfl
  | cons a rest ih =>
      simp only [List.cons_append, outputs_cons, run_cons, List.append_assoc]
      rw [ih]

instance decidableAlong (guard : S → A → Prop) [∀ s a, Decidable (guard s a)] :
    ∀ s actions, Decidable (m.Along guard s actions)
  | _, [] => inferInstanceAs (Decidable True)
  | s, a :: rest =>
      have := decidableAlong guard (m.step s a) rest
      inferInstanceAs (Decidable (guard s a ∧ m.Along guard (m.step s a) rest))

variable {m} {guard : S → A → Prop} {s : S} {actions : List A}

theorem along_append {first second : List A} :
    m.Along guard s (first ++ second) ↔
      m.Along guard s first ∧ m.Along guard (m.run s first) second := by
  induction first generalizing s with
  | nil => simp
  | cons a rest ih => simp only [List.cons_append, along_cons, run_cons, ih, and_assoc]

theorem along_mono {guard' : S → A → Prop} (hweaker : ∀ s a, guard s a → guard' s a)
    (halong : m.Along guard s actions) : m.Along guard' s actions := by
  induction actions generalizing s with
  | nil => exact trivial
  | cons a rest ih => exact ⟨hweaker s a halong.1, ih halong.2⟩

/-- A guard that admits every step admits every run. -/
theorem along_of_forall (hall : ∀ s a, guard s a) (s : S) (actions : List A) :
    m.Along guard s actions := by
  induction actions generalizing s with
  | nil => exact trivial
  | cons a rest ih => exact ⟨hall s a, ih _⟩

theorem along_iff : m.Along guard s actions ↔
    ∀ before a after, actions = before ++ a :: after → guard (m.run s before) a := by
  constructor
  · rintro halong before a after rfl
    exact (along_append.mp halong).2.1
  · intro hall
    induction actions generalizing s with
    | nil => exact trivial
    | cons a rest ih =>
        refine ⟨hall [] a rest rfl, ih ?_⟩
        rintro before b after rfl
        exact hall (a :: before) b after rfl

/-- Runs do not depend on what the steps emit. -/
theorem along_congr {O' : Type} {m' : Machine S A O'} (hstep : m'.step = m.step) :
    m'.Along guard s actions ↔ m.Along guard s actions := by
  induction actions generalizing s with
  | nil => exact Iff.rfl
  | cons a rest ih => rw [along_cons, along_cons, hstep, ih]

theorem along_and {guard' : S → A → Prop} (h : m.Along guard s actions)
    (h' : m.Along guard' s actions) : m.Along (fun s a => guard s a ∧ guard' s a) s actions := by
  induction actions generalizing s with
  | nil => exact trivial
  | cons a rest ih => exact ⟨⟨h.1, h'.1⟩, ih h.2 h'.2⟩

/-- A property of the state and of everything emitted so far that each admitted step
preserves holds at the end of a run if it held at its start. -/
theorem history_run {J : List O → S → Prop}
    (hstep : ∀ past s a, J past s → guard s a → J (past ++ m.out s a) (m.step s a))
    (past : List O) (hstart : J past s) (halong : m.Along guard s actions) :
    J (past ++ m.outputs s actions) (m.run s actions) := by
  induction actions generalizing s past with
  | nil => simpa using hstart
  | cons a rest ih =>
      obtain ⟨hguard, halong⟩ := halong
      rw [outputs_cons, run_cons, ← List.append_assoc]
      exact ih _ (hstep past s a hstart hguard) halong

/-- A property of the actions so far, of everything emitted and of the state that each step
preserves holds at the end of a run if it held at its start. -/
theorem record_run {J : List A → List O → S → Prop}
    (hstep : ∀ past done s a, J past done s → J (past ++ [a]) (done ++ m.out s a) (m.step s a))
    (past : List A) (done : List O) (hstart : J past done s) (actions : List A) :
    J (past ++ actions) (done ++ m.outputs s actions) (m.run s actions) := by
  induction actions generalizing s past done with
  | nil => simpa using hstart
  | cons a rest ih =>
      have hrest := ih (past ++ [a]) (done ++ m.out s a) (hstep past done s a hstart)
      rwa [List.append_assoc, List.append_assoc] at hrest

/-- A property that each admitted step preserves is an invariant of every run. -/
theorem invariant_run {I : S → Prop} (hstep : ∀ s a, I s → guard s a → I (m.step s a))
    (hstart : I s) (halong : m.Along guard s actions) : I (m.run s actions) :=
  history_run (J := fun _ => I) (fun _ => hstep) [] hstart halong

/-- Everything a run emits has a property that every admitted step gives its outputs. -/
theorem outputs_forall {I : S → Prop} {P : O → Prop}
    (hstep : ∀ s a, I s → guard s a → I (m.step s a))
    (hout : ∀ s a, I s → guard s a → ∀ o ∈ m.out s a, P o)
    (hstart : I s) (halong : m.Along guard s actions) : ∀ o ∈ m.outputs s actions, P o := by
  have hboth := history_run (J := fun past s => I s ∧ ∀ o ∈ past, P o)
    (fun past s a hpast hguard => ⟨hstep s a hpast.1 hguard, fun o ho => by
      rcases List.mem_append.mp ho with hold | hnew
      · exact hpast.2 o hold
      · exact hout s a hpast.1 hguard o hnew⟩)
    [] ⟨hstart, by simp⟩ halong
  simpa using hboth.2

/-- Where every step emits one output, a split of the outputs is a split of the actions. -/
theorem outputs_split {one : S → A → O} (hone : ∀ s a, m.out s a = [one s a]) {first last : List O}
    (h : m.outputs s actions = first ++ last) :
    ∃ early late, actions = early ++ late ∧ m.outputs s early = first ∧
      m.outputs (m.run s early) late = last := by
  induction first generalizing s actions with
  | nil => exact ⟨[], actions, rfl, rfl, h⟩
  | cons o first ih =>
      cases actions with
      | nil => cases h
      | cons a rest =>
          rw [outputs_cons, hone, List.singleton_append, List.cons_append, List.cons.injEq] at h
          obtain ⟨early, late, rfl, hearly, hlate⟩ := ih h.2
          refine ⟨a :: early, late, rfl, ?_, hlate⟩
          rw [outputs_cons, hone, hearly, h.1, List.singleton_append]

/-- What is seen of the state stays as it is until a step takes it away. -/
theorem kept_until {V : Type} {I : S → Prop} (view : S → V) (leaves : S → A → Prop) {v : V}
    (hinvariant : ∀ s a, I s → guard s a → I (m.step s a))
    (hstep : ∀ s a, I s → guard s a → view s = v → view (m.step s a) = v ∨ leaves s a)
    (hstart : I s) (hview : view s = v) (halong : m.Along guard s actions) :
    view (m.run s actions) = v ∨
      ∃ first a rest, actions = first ++ a :: rest ∧ view (m.run s first) = v ∧
        leaves (m.run s first) a := by
  induction actions generalizing s with
  | nil => exact .inl hview
  | cons a rest ih =>
      obtain ⟨hguard, halong⟩ := halong
      rcases hstep s a hstart hguard hview with hkept | hleaves
      · rcases ih (hinvariant s a hstart hguard) hkept halong with hlast |
          ⟨first, b, rest, rfl, hrest⟩
        · exact .inl hlast
        · exact .inr ⟨a :: first, b, rest, rfl, hrest⟩
      · exact .inr ⟨[], a, rest, rfl, hview, hleaves⟩

end Machine
