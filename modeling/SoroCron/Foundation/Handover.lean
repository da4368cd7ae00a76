import SoroCron.Foundation.Machine

/-! # Handovers in two steps

An office has a holder and perhaps somebody it is offered to. If only an offer by the holder
names somebody, and whatever is not a move of the office leaves both as they are, then whoever
the office is offered to was named by its present holder, in the last move there was.
-/

/-- Something like `event` happened, and only things like `quiet` since. -/
def Since {E : Type} (event quiet : E → Prop) (past : List E) : Prop :=
  ∃ earlier one later, past = earlier ++ one :: later ∧ event one ∧ ∀ other ∈ later, quiet other

namespace Since

variable {E : Type} {event event' quiet : E → Prop} {past : List E} {one : E}

theorem now (hevent : event one) : Since event quiet (past ++ [one]) :=
  ⟨past, one, [], rfl, hevent, fun _ hmem => nomatch hmem⟩

theorem later (h : Since event quiet past) (hquiet : quiet one) :
    Since event quiet (past ++ [one]) := by
  obtain ⟨earlier, first, since, rfl, hevent, hall⟩ := h
  refine ⟨earlier, first, since ++ [one], by simp, hevent, ?_⟩
  intro other hmem
  rcases List.mem_append.mp hmem with hold | hnew
  · exact hall other hold
  · cases List.mem_singleton.mp hnew
    exact hquiet

theorem mono (h : Since event quiet past) (hweaker : ∀ one, event one → event' one) :
    Since event' quiet past := by
  obtain ⟨earlier, one, later, hpast, hevent, hall⟩ := h
  exact ⟨earlier, one, later, hpast, hweaker one hevent, hall⟩

end Since

namespace Machine

variable {S A O H : Type} {m : Machine S A O} {guard : S → A → Prop} {s : S} {actions : List A}

/-- The steps of a run, each with the state it found. -/
def trace (m : Machine S A O) : S → List A → List (S × A)
  | _, [] => []
  | s, a :: rest => (s, a) :: trace m (m.step s a) rest

/-- A property of the state and of all steps so far that each step preserves holds whenever a
step is taken. -/
theorem trace_history {J : List (S × A) → S → Prop}
    (hstep : ∀ past s a, J past s → guard s a → J (past ++ [(s, a)]) (m.step s a))
    (before : List (S × A)) {past rest : List (S × A)} {found : S} {action : A}
    (hstart : J before s)
    (halong : m.Along guard s actions) (h : m.trace s actions = past ++ (found, action) :: rest) :
    J (before ++ past) found ∧ guard found action := by
  induction actions generalizing s before past with
  | nil =>
      cases past with
      | nil => cases h
      | cons => cases h
  | cons a later ih =>
      obtain ⟨hguard, halong⟩ := halong
      cases past with
      | nil =>
          cases h
          rw [List.append_nil]
          exact ⟨hstart, hguard⟩
      | cons one past =>
          rw [trace, List.cons_append, List.cons.injEq] at h
          obtain ⟨rfl, h⟩ := h
          have hrest := ih _ (hstep before s a hstart hguard) halong h
          rwa [List.append_assoc] at hrest

/-- Whoever an office is offered to when a step is taken was offered it by its present holder, and
there was no move of the office since. -/
theorem offered_since {I : S → Prop} (holder offered : S → Option H) (offers : H → S × A → Prop)
    (moves : S × A → Prop) (hinvariant : ∀ s a, I s → guard s a → I (m.step s a))
    (hstill : ∀ s a, I s → guard s a → ¬ moves (s, a) → ∀ next, offered (m.step s a) = some next →
      offered s = some next ∧ holder (m.step s a) = holder s)
    (hmoved : ∀ s a, I s → guard s a → moves (s, a) → ∀ next, offered (m.step s a) = some next →
      offers next (s, a) ∧ holder (m.step s a) = holder s)
    {past rest : List (S × A)} {found : S} {action : A} {next : H} (hstart : I s)
    (hnone : offered s = none)
    (halong : m.Along guard s actions) (h : m.trace s actions = past ++ (found, action) :: rest)
    (hnext : offered found = some next) :
    Since (fun one => offers next one ∧ holder one.1 = holder found)
      (fun one => ¬ moves one) past := by
  have hhistory := trace_history
    (J := fun past s => I s ∧ ∀ next, offered s = some next →
      Since (fun one => offers next one ∧ holder one.1 = holder s) (fun one => ¬ moves one) past)
    ?_ [] ?_ halong h
  · exact hhistory.1.2 next hnext
  · rintro past s a ⟨hI, hpast⟩ hguard
    refine ⟨hinvariant s a hI hguard, ?_⟩
    intro next hnext
    by_cases hmoves : moves (s, a)
    · obtain ⟨hoffers, hsame⟩ := hmoved s a hI hguard hmoves next hnext
      exact .now ⟨hoffers, hsame.symm⟩
    · obtain ⟨hbefore, hsame⟩ := hstill s a hI hguard hmoves next hnext
      rw [hsame]
      exact (hpast next hbefore).later hmoves
  · refine ⟨hstart, ?_⟩
    intro next hnext
    rw [hnone] at hnext
    cases hnext

end Machine
