import Mathlib.Logic.Basic

/-! # Outcomes with two kinds of failure

A call can be *rejected* with an error its caller may inspect and recover from,
or *trap*, which no caller can catch. `Fault` tells the two apart; checks that
can only reject return a plain `Except`, and `raise` embeds them.
-/

/-- Why a computation did not return. -/
inductive Fault (Rejection Trap : Type) where
  | rejected (reason : Rejection)
  | trap (reason : Trap)
  deriving DecidableEq, Repr

namespace Outcome

variable {E T α β : Type}

theorem bind_eq_ok {ε : Type} {x : Except ε α} {next : α → Except ε β} {result : β} :
    (x >>= next) = .ok result ↔ ∃ value, x = .ok value ∧ next value = .ok result := by
  cases x with
  | error reason => simp [bind, Except.bind]
  | ok value => simp [bind, Except.bind]

theorem bind_eq_error {ε : Type} {x : Except ε α} {next : α → Except ε β} {reason : ε} :
    (x >>= next) = .error reason ↔
      x = .error reason ∨ ∃ value, x = .ok value ∧ next value = .error reason := by
  cases x with
  | error other => simp [bind, Except.bind]
  | ok value => simp [bind, Except.bind]

theorem exists_unit {P : Unit → Prop} : (∃ u, P u) ↔ P () :=
  ⟨fun ⟨_, h⟩ => h, fun h => ⟨(), h⟩⟩

@[simp] theorem pure_eq_ok {ε : Type} {value result : α} :
    (pure value : Except ε α) = .ok result ↔ value = result := by
  simp [pure, Except.pure]

/-- Reject with `reason` when `condition` holds. -/
def rejectIf (condition : Prop) [Decidable condition] (reason : E) : Except E Unit :=
  if condition then .error reason else .ok ()

/-- The value of an option, or a rejection when there is none. -/
def okOr (value : Option α) (reason : E) : Except E α :=
  match value with
  | some a => .ok a
  | none => .error reason

/-- A check that can only reject, run inside a computation that can also trap. -/
def raise (x : Except E α) : Except (Fault E T) α :=
  match x with
  | .ok a => .ok a
  | .error reason => .error (.rejected reason)

/-- The value of an option, or a trap when there is none. -/
def orTrap (value : Option α) (reason : T) : Except (Fault E T) α :=
  match value with
  | some a => .ok a
  | none => .error (.trap reason)

/-- Trap with `reason` unless `condition` holds. -/
def require (condition : Prop) [Decidable condition] (reason : T) : Except (Fault E T) Unit :=
  if condition then .ok () else .error (.trap reason)

section Laws

variable {reason : E} {why : T} {a : α}

@[simp] theorem rejectIf_eq_ok {condition : Prop} [Decidable condition] {u : Unit} :
    rejectIf condition reason = .ok u ↔ ¬ condition := by
  unfold rejectIf
  split <;> simp_all

@[simp] theorem rejectIf_eq_error {condition : Prop} [Decidable condition] {other : E} :
    rejectIf condition reason = .error other ↔ condition ∧ reason = other := by
  unfold rejectIf
  split <;> simp_all

@[simp] theorem okOr_eq_ok {value : Option α} : okOr value reason = .ok a ↔ value = some a := by
  cases value <;> simp [okOr]

@[simp] theorem okOr_eq_error {value : Option α} {other : E} :
    okOr value reason = .error other ↔ value = none ∧ reason = other := by
  cases value <;> simp [okOr]

@[simp] theorem raise_eq_ok {x : Except E α} :
    (raise x : Except (Fault E T) α) = .ok a ↔ x = .ok a := by
  cases x <;> simp [raise]

@[simp] theorem raise_eq_rejected {x : Except E α} :
    (raise x : Except (Fault E T) α) = .error (.rejected reason) ↔ x = .error reason := by
  cases x <;> simp [raise]

@[simp] theorem raise_ne_trap {x : Except E α} :
    (raise x : Except (Fault E T) α) ≠ .error (.trap why) := by
  cases x <;> simp [raise]

@[simp] theorem orTrap_eq_ok {value : Option α} :
    (orTrap value why : Except (Fault E T) α) = .ok a ↔ value = some a := by
  cases value <;> simp [orTrap]

@[simp] theorem orTrap_ne_rejected {value : Option α} :
    (orTrap value why : Except (Fault E T) α) ≠ .error (.rejected reason) := by
  cases value <;> simp [orTrap]

theorem orTrap_eq_error {value : Option α} {fault : Fault E T} :
    (orTrap value why : Except (Fault E T) α) = .error fault ↔
      value = none ∧ fault = .trap why := by
  cases value <;> simp [orTrap, eq_comm]

@[simp] theorem require_ne_rejected {condition : Prop} [Decidable condition] :
    (require condition why : Except (Fault E T) Unit) ≠ .error (.rejected reason) := by
  unfold require
  split <;> simp

@[simp] theorem require_eq_ok {condition : Prop} [Decidable condition] {u : Unit} :
    (require condition why : Except (Fault E T) Unit) = .ok u ↔ condition := by
  unfold require
  split <;> simp_all

end Laws

end Outcome
