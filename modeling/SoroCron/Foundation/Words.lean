import Mathlib.Data.Option.Basic

/-! # Words about a changing thing

Events tell of a part of a thing: nothing, that it changed, or what it became.
Whoever follows the events knows the part as soon as no event is left that tells of it.
-/

/-- What an event tells of a part: nothing, that it changed, or its new value. -/
inductive Word (A : Type) where
  | nothing
  | changed
  | became (value : A)

namespace Word

variable {E A V : Type}

/-- The later of two words, unless it is empty. -/
def orElse : Word A → Word A → Word A
  | nothing, earlier => earlier
  | later, _ => later

@[simp] theorem nothing_orElse (earlier : Word A) : nothing.orElse earlier = earlier := rfl

@[simp] theorem orElse_nothing (later : Word A) : later.orElse nothing = later := by
  cases later with
  | nothing => rfl
  | changed => rfl
  | became value => rfl

theorem orElse_assoc (first second third : Word A) :
    (first.orElse second).orElse third = first.orElse (second.orElse third) := by
  cases first with
  | nothing => rfl
  | changed => rfl
  | became value => rfl

theorem orElse_eq_nothing {later earlier : Word A} :
    later.orElse earlier = nothing ↔ later = nothing ∧ earlier = nothing := by
  cases later with
  | nothing => simp
  | changed => simp [orElse]
  | became value => simp [orElse]

theorem orElse_eq_became {later earlier : Word A} {value : A} :
    later.orElse earlier = became value ↔
      later = became value ∨ (later = nothing ∧ earlier = became value) := by
  cases later with
  | nothing => simp
  | changed => simp [orElse]
  | became other => simp [orElse]

/-- The last word of several events. -/
def last (word : E → Word A) : List E → Word A
  | [] => nothing
  | event :: rest => (last word rest).orElse (word event)

variable {word : E → Word A}

@[simp] theorem last_nil : last word [] = nothing := rfl

@[simp] theorem last_cons (event : E) (rest : List E) :
    last word (event :: rest) = (last word rest).orElse (word event) := rfl

theorem last_append (first second : List E) :
    last word (first ++ second) = (last word second).orElse (last word first) := by
  induction first with
  | nil => simp
  | cons event rest ih => rw [List.cons_append, last_cons, ih, last_cons, orElse_assoc]

/-! ## A thing and its followers

A thing is there or not; `part` is a part of it.
-/

variable {part : V → A} {events rest new : List E} {event : E}
  {before after thing kept kept' : Option V}

/-- The last word of `events` is true of the thing. -/
def Holds (word : E → Word A) (part : V → A) (events : List E) (thing : Option V) : Prop :=
  ∀ v ∈ thing, ∀ value, last word events = became value → part v = value

/-- What `events` say of a change. -/
structure Tells (word : E → Word A) (part : V → A) (events : List E) (before after : Option V) :
    Prop where
  became : ∀ v ∈ after, ∀ value, last word events = became value → part v = value
  nothing : ∀ v ∈ after, last word events = nothing → ∃ found ∈ before, part found = part v

/-- A follower keeps `kept` of the thing, and `rest` is still to come. -/
def Follows (word : E → Word A) (part : V → A) (rest : List E) (kept thing : Option V) : Prop :=
  ∀ w ∈ kept, ∀ v ∈ thing, last word rest = nothing → part w = part v

/-- A follower does as `event` tells it: on `changed` it looks at the thing. -/
structure Obeys (word : E → Word A) (part : V → A) (event : E) (thing kept kept' : Option V) :
    Prop where
  became : ∀ w ∈ kept', ∀ value, word event = became value → part w = value
  changed : ∀ w ∈ kept', word event = changed → ∀ v ∈ thing, part w = part v
  nothing : ∀ w ∈ kept', word event = nothing → ∃ found ∈ kept, part found = part w

theorem Obeys.looked (hchanged : word event = .changed) :
    Obeys word part event thing kept (thing.or kept) := by
  refine ⟨?_, ?_, ?_⟩
  · intro w _ value hbecame
    rw [hchanged] at hbecame
    cases hbecame
  · intro w hw _ v hv
    rw [Option.mem_def.mp hv, Option.some_or] at hw
    cases hw
    rfl
  · intro w _ hnothing
    rw [hchanged] at hnothing
    cases hnothing

theorem Obeys.dropped : Obeys word part event thing kept none := by
  refine ⟨?_, ?_, ?_⟩
  · intro w hw
    cases hw
  · intro w hw
    cases hw
  · intro w hw
    cases hw

theorem Obeys.edited {edit : V → V}
    (hbecame : ∀ value, word event = .became value → ∀ v, part (edit v) = value)
    (hchanged : word event ≠ .changed)
    (hnothing : word event = .nothing → ∀ v, part (edit v) = part v) :
    Obeys word part event thing kept (kept.map edit) := by
  refine ⟨?_, ?_, ?_⟩
  · intro w hw value hvalue
    obtain ⟨found, -, rfl⟩ := Option.map_eq_some_iff.mp hw
    exact hbecame value hvalue found
  · intro w _ hword
    exact absurd hword hchanged
  · intro w hw hword
    obtain ⟨found, hfound, rfl⟩ := Option.map_eq_some_iff.mp hw
    exact ⟨found, hfound, (hnothing hword found).symm⟩

/-- Nothing is heard of an event that tells nothing. -/
theorem Obeys.ignored (hnothing : word event = .nothing) :
    Obeys word part event thing kept kept := by
  refine ⟨?_, ?_, ?_⟩
  · intro w _ value hword
    rw [hnothing] at hword
    cases hword
  · intro w _ hword
    rw [hnothing] at hword
    cases hword
  · intro w hw _
    exact ⟨w, hw, rfl⟩

theorem Holds.told (h : Holds word part events before) (htells : Tells word part new before after) :
    Holds word part (events ++ new) after := by
  intro v hv value hlast
  rw [last_append, orElse_eq_became] at hlast
  rcases hlast with hnew | ⟨hsilent, hold⟩
  · exact htells.became v hv value hnew
  · obtain ⟨found, hfound, hsame⟩ := htells.nothing v hv hsilent
    rw [← hsame]
    exact h found hfound value hold

theorem Follows.told (h : Follows word part rest kept before)
    (htells : Tells word part new before after) : Follows word part (rest ++ new) kept after := by
  intro w hw v hv hlast
  rw [last_append, orElse_eq_nothing] at hlast
  obtain ⟨found, hfound, hsame⟩ := htells.nothing v hv hlast.1
  rw [← hsame]
  exact h w hw found hfound hlast.2

/-- One event less to come. -/
theorem Follows.obeyed (hholds : Holds word part (events ++ event :: rest) thing)
    (h : Follows word part (event :: rest) kept thing)
    (hobeys : Obeys word part event thing kept kept') : Follows word part rest kept' thing := by
  intro w hw v hv hlast
  cases hword : word event with
  | nothing =>
      obtain ⟨found, hfound, hsame⟩ := hobeys.nothing w hw hword
      rw [← hsame]
      apply h found hfound v hv
      rw [last_cons, hlast, hword, nothing_orElse]
  | changed => exact hobeys.changed w hw hword v hv
  | became value =>
      rw [hobeys.became w hw value hword]
      symm
      apply hholds v hv
      rw [last_append, last_cons, hlast, hword]
      rfl

/-- What is told of a thing that itself does as its events say. -/
theorem Tells.of_obeyed (hear : E → Option V → Option V) (heard : Option V)
    (hobeys : ∀ event ∈ events, ∀ kept, Obeys word part event after kept (hear event kept))
    (hheard : events.foldl (fun kept event => hear event kept) before = heard)
    (hsame : heard.map part = after.map part) : Tells word part events before after := by
  have hrun : Tells word part events before heard := by
    clear hsame
    induction events generalizing before with
    | nil =>
        subst hheard
        refine ⟨?_, ?_⟩
        · intro v _ value hlast
          cases hlast
        · intro v hv _
          exact ⟨v, hv, rfl⟩
    | cons event rest ih =>
        have hrest := ih (fun event hmem => hobeys event (List.mem_cons_of_mem _ hmem)) hheard
        have hfirst := hobeys event List.mem_cons_self before
        refine ⟨?_, ?_⟩
        · intro v hv value hlast
          rw [last_cons, orElse_eq_became] at hlast
          rcases hlast with hlater | ⟨hsilent, hnow⟩
          · exact hrest.became v hv value hlater
          · obtain ⟨found, hfound, hsame⟩ := hrest.nothing v hv hsilent
            rw [← hsame]
            exact hfirst.became found hfound value hnow
        · intro v hv hlast
          rw [last_cons, orElse_eq_nothing] at hlast
          obtain ⟨middle, hmiddle, hsame⟩ := hrest.nothing v hv hlast.1
          obtain ⟨found, hfound, hfirstSame⟩ := hfirst.nothing middle hmiddle hlast.2
          exact ⟨found, hfound, hfirstSame.trans hsame⟩
  have hfind : ∀ v ∈ after, ∃ w ∈ heard, part w = part v := by
    intro v hv
    have hmap : heard.map part = some (part v) := by
      rw [hsame, Option.mem_def.mp hv, Option.map_some]
    exact Option.map_eq_some_iff.mp hmap
  refine ⟨?_, ?_⟩
  · intro v hv value hlast
    obtain ⟨w, hw, hpart⟩ := hfind v hv
    rw [← hpart]
    exact hrun.became w hw value hlast
  · intro v hv hlast
    obtain ⟨w, hw, hpart⟩ := hfind v hv
    obtain ⟨found, hfound, hkept⟩ := hrun.nothing w hw hlast
    exact ⟨found, hfound, hkept.trans hpart⟩

/-- A follower that is behind knows no more than one that is not. -/
theorem Follows.behind (h : Follows word part rest kept thing) (more : List E) :
    Follows word part (more ++ rest) kept thing := by
  intro w hw v hv hlast
  rw [last_append, orElse_eq_nothing] at hlast
  exact h w hw v hv hlast.1

theorem Follows.looked (rest : List E) (thing : Option V) : Follows word part rest thing thing := by
  intro w hw v hv _
  cases hw.symm.trans hv
  rfl

end Word
