import SoroCron.Foundation.Words
import SoroCron.KeeperBot.JobIndex

/-! # What events tell the index

Seen from one job, applying an event changes at most the entry of that job. Everything but the
balance is set to what the event says or read again, so the last event that says anything of it
decides.
-/

namespace SoroCron.KeeperBot

/-- A job as the index would read it. -/
def indexed (jobs : JobTable) (id : JobId) : Option IndexedJob := (jobs.getJob id).map toIndexed

/-! ## One entry -/

/-- An entry after an event; `fresh` is the job as it is now. -/
def hear (fresh : Option IndexedJob) (id : JobId) (event : Event) (entry : Option IndexedJob) :
    Option IndexedJob :=
  if tracked event = some id then
    match event with
    | .jobCreated .. | .jobUpdated .. => fresh.or entry
    | .jobCancelled .. => none
    | .jobExecuted _ _ _ fee _ run nextRun _ _ _ =>
        entry.map fun job => { job with nextRun, runs := run, balance := job.balance - fee }
    | .jobFunded _ _ _ balance | .jobWithdrawn _ _ balance | .jobExhausted _ balance =>
        entry.map fun job => { job with balance }
    | .jobActiveSet _ active => entry.map fun job => { job with active }
    | .jobDeactivated .. => entry.map fun job => { job with active := false }
    | _ => entry
  else
    entry

section Hear

variable {fresh entry : Option IndexedJob} {id : JobId} {event : Event}

theorem hear_of_untracked (h : tracked event ≠ some id) : hear fresh id event entry = entry :=
  if_neg h

theorem get_alter {jobs : Listing JobId IndexedJob} {other : JobId}
    {change : IndexedJob → IndexedJob} : (jobs.alter other change).get id = if other = id then
      (jobs.get id).map change else jobs.get id := by
  split
  next heq =>
    subst heq
    exact Listing.get_alter_self change
  next hne => exact Listing.get_alter_of_ne change (Ne.symm hne)

/-- The index hears an event entry by entry. -/
theorem get_applyEvent (table : JobTable) (jobs : Listing JobId IndexedJob) (event : Event)
    (id : JobId) : (applyEvent table.getJob jobs event).get id =
      hear (indexed table id) id event (jobs.get id) := by
  have hasked : ∀ other, (applyEvent table.getJob jobs (.jobUpdated other 0 0 0 0)).get id =
      if other = id then (indexed table id).or (jobs.get id) else jobs.get id := by
    intro other
    simp only [applyEvent]
    split
    next fresh hfresh =>
      split
      next heq =>
        subst heq
        rw [Listing.get_set_self, indexed, hfresh]
        rfl
      next hne => exact Listing.get_set_of_ne (Ne.symm hne)
    next hnone =>
      split
      next heq =>
        subst heq
        rw [indexed, hnone]
        rfl
      next => rfl
  have herased : ∀ other, (jobs.erase other).get id = if other = id then none else jobs.get id := by
    intro other
    split
    next heq =>
      subst heq
      exact Listing.get_erase_self
    next hne => exact Listing.get_erase_of_ne (Ne.symm hne)
  cases event with
  | jobCreated other =>
      simp only [hear, tracked, Option.some.injEq]
      exact hasked other
  | jobUpdated other =>
      simp only [hear, tracked, Option.some.injEq]
      exact hasked other
  | jobCancelled other =>
      simp only [applyEvent, hear, tracked, Option.some.injEq]
      exact herased other
  | _ => simp only [applyEvent, hear, tracked, Option.some.injEq, get_alter, reduceCtorEq, if_false]

end Hear

/-! ## Parts of an entry -/

/-- What an entry says besides the balance. -/
inductive Part where
  | terms
  | run
  | active

namespace Part

def Value : Part → Type
  | terms => JobId × ℤ × ℕ × Timestamp
  | run => Timestamp × ℕ
  | active => Bool

def read : (part : Part) → IndexedJob → part.Value
  | terms, job => (job.id, job.feePerRun, job.maxRuns, job.endAt)
  | run, job => (job.nextRun, job.runs)
  | active, job => job.active

/-- What an event says of a part of job `id`. -/
def word (part : Part) (id : JobId) (event : Event) : Word part.Value :=
  if tracked event = some id then
    match part, event with
    | _, .jobCreated .. | _, .jobUpdated .. => .changed
    | run, .jobExecuted _ _ _ _ _ count next _ _ _ => .became (next, count)
    | active, .jobActiveSet _ value => .became value
    | active, .jobDeactivated .. => .became false
    | _, _ => .nothing
  else
    .nothing

/-- An index that hears an event does as it says. -/
theorem obeys (part : Part) (id : JobId) (event : Event) (fresh entry : Option IndexedJob) :
    Word.Obeys (part.word id) part.read event fresh entry (hear fresh id event entry) := by
  by_cases htracked : tracked event = some id
  · have hword : part.word id event = _ := if_pos htracked
    have hhear : hear fresh id event entry = _ := if_pos htracked
    rw [hhear]
    cases event with
    | jobCreated _ _ _ _ _ _ => exact .looked (hword.trans (by cases part <;> rfl))
    | jobUpdated _ _ _ _ _ => exact .looked (hword.trans (by cases part <;> rfl))
    | jobCancelled _ _ => exact .dropped
    | _ =>
        cases htracked
        all_goals
          refine .edited ?_ ?_ ?_
          · intro value hbecame v
            rw [hword] at hbecame
            cases part <;> cases hbecame <;> rfl
          · intro hchanged
            rw [hword] at hchanged
            cases part <;> cases hchanged
          · intro hnothing v
            rw [hword] at hnothing
            cases part <;> first | rfl | cases hnothing
  · rw [hear_of_untracked htracked]
    exact .ignored (if_neg htracked)

end Part

end SoroCron.KeeperBot
