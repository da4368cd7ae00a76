import Mathlib.Logic.Function.Basic
import SoroCron.Foundation.Life

/-! # Books kept from a log

A book has an entry under some of its keys. What events say of one key amends the entry under
that key, and a book that every change keeps up to date is rebuilt by the events of any life.
-/

namespace Replay

variable {K V : Type} [DecidableEq K] {book after : K → Option V} {key other : K} {change : V → V}

/-- The book with the entry under `key` changed, if there is one. -/
def amend (book : K → Option V) (key : K) (change : V → V) : K → Option V :=
  Function.update book key ((book key).map change)

@[simp] theorem amend_self : amend book key change key = (book key).map change :=
  Function.update_self ..

theorem amend_of_ne (hne : other ≠ key) : amend book key change other = book other :=
  Function.update_of_ne hne ..

theorem amend_amend (book : K → Option V) (key : K) (first second : V → V) :
    amend (amend book key first) key second = amend book key (second ∘ first) := by
  rw [amend, amend_self, Option.map_map]
  exact Function.update_idem ..

@[simp] theorem amend_id (book : K → Option V) (key : K) :
    (amend book key fun entry => entry) = book := by
  rw [amend, Option.map_id']
  exact Function.update_eq_self key book

/-- A book in which only the entry under `key` changed is the amended one. -/
theorem amend_eq (hself : after key = (book key).map change)
    (hother : ∀ other, other ≠ key → after other = book other) : amend book key change = after := by
  funext other
  by_cases heq : other = key
  · rw [heq, amend_self, hself]
  · rw [amend_of_ne heq, hother other heq]

/-- The same for an entry that is entered, replaced or struck out. -/
theorem update_eq {entry : Option V} (hself : after key = entry)
    (hother : ∀ other, other ≠ key → after other = book other) :
    Function.update book key entry = after := by
  funext other
  by_cases heq : other = key
  · rw [heq, Function.update_self, hself]
  · rw [Function.update_of_ne heq, hother other heq]

end Replay

/-- If the events of each change bring a view up to date, so do the events of a life. -/
theorem Life.replay {A P E V : Type} {Change : A → P → P → Prop} {acts : List A} {before after : P}
    (apply : V → E → V) (told : A → List E) (view : P → V)
    (hchange : ∀ act before after, Change act before after →
      (told act).foldl apply (view before) = view after)
    (h : Life Change acts before after) :
    (acts.flatMap told).foldl apply (view before) = view after := by
  induction h with
  | nil => rfl
  | cons hone _ ih => rw [List.flatMap_cons, List.foldl_append, hchange _ _ _ hone, ih]
