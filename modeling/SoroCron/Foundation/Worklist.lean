import Mathlib.Algebra.GroupWithZero.Nat
import Mathlib.Data.List.Basic
import Mathlib.Data.List.Perm.Basic
import SoroCron.Foundation.Machine

/-! # Work lists

A work list holds batches of items to try. A try takes one batch; it settles its items, or puts
smaller parts of it back on the list for later tries. However parts are put back, a list is
worked off in fewer tries than twice its items, and an item is on the list at most once.
-/

namespace Worklist

variable {α : Type}

/-- Slices of `size` items, in order. -/
def slices (size : ℕ) (items : List α) : List (List α) :=
  (List.range ((items.length + size - 1) / size)).map fun i => (items.drop (i * size)).take size

/-- The first half is the larger. -/
def halves (items : List α) : List (List α) :=
  let half := (items.length + 1) / 2
  [items.take half, items.drop half]

/-- What a try of `batch` may put back: nothing, or smaller parts. -/
structure Divides (batch : List α) (parts : List (List α)) : Prop where
  part_ne : ∀ part ∈ parts, part ≠ []
  sublist : parts.flatten.Sublist batch
  not_one : parts.length ≠ 1

/-- One batch is taken off the list and its parts are put back, wherever. -/
def Takes (batch : List α) (parts left left' : List (List α)) : Prop :=
  ∃ rest, left.Perm (batch :: rest) ∧ left'.Perm (parts ++ rest)

/-- A bound on the tries that a list takes. -/
def weight (left : List (List α)) : ℕ := (left.map fun batch => 2 * batch.length - 1).sum

/-- No batch is empty, and no item is listed twice. -/
structure Fresh (left : List (List α)) : Prop where
  batch_ne : ∀ batch ∈ left, batch ≠ []
  distinct : left.flatten.Nodup

/-! ## Slices and halves -/

theorem slices_nil {size : ℕ} (hsize : 0 < size) : slices size ([] : List α) = [] := by
  have hnone : (0 + size - 1) / size = 0 := Nat.div_eq_of_lt (by omega)
  rw [slices, List.length_nil, hnone]
  rfl

theorem slices_of_ne_nil {size : ℕ} (hsize : 0 < size) {items : List α} (hsome : items ≠ []) :
    slices size items = items.take size :: slices size (items.drop size) := by
  have hpos := List.length_pos_of_ne_nil hsome
  have hcount : (items.length + size - 1) / size =
      ((items.drop size).length + size - 1) / size + 1 := by
    rw [List.length_drop]
    rcases Nat.lt_or_ge items.length size with hshort | hlong
    · have hzero : items.length - size = 0 := by omega
      have hone : items.length + size - 1 = (items.length - 1) + size := by omega
      rw [hzero, hone, Nat.add_div_right _ hsize, Nat.div_eq_of_lt (by omega),
        Nat.div_eq_of_lt (by omega)]
    · have hmore : items.length + size - 1 = (items.length - size + size - 1) + size := by omega
      rw [hmore, Nat.add_div_right _ hsize]
  rw [slices, hcount, List.range_succ_eq_map, List.map_cons, List.map_map]
  refine congrArg₂ _ (by rw [Nat.zero_mul, List.drop_zero]) (List.map_congr_left ?_)
  intro i _
  simp only [Function.comp_apply, List.drop_drop]
  rw [Nat.succ_mul, Nat.add_comm]

theorem flatten_slices {size : ℕ} (hsize : 0 < size) (items : List α) :
    (slices size items).flatten = items := by
  induction hlength : items.length using Nat.strongRecOn generalizing items with
  | _ length ih =>
      by_cases hnone : items = []
      · rw [hnone, slices_nil hsize, List.flatten_nil]
      · have hpos := List.length_pos_of_ne_nil hnone
        rw [slices_of_ne_nil hsize hnone, List.flatten_cons,
          ih (items.drop size).length (by rw [List.length_drop]; omega) _ rfl,
            List.take_append_drop]

theorem mem_slices {size : ℕ} (hsize : 0 < size) {items slice : List α}
    (h : slice ∈ slices size items) : slice ≠ [] ∧ slice.length ≤ size := by
  induction hlength : items.length using Nat.strongRecOn generalizing items with
  | _ length ih =>
      by_cases hnone : items = []
      · rw [hnone, slices_nil hsize] at h
        cases h
      · have hpos := List.length_pos_of_ne_nil hnone
        rw [slices_of_ne_nil hsize hnone] at h
        rcases List.mem_cons.mp h with rfl | hrest
        · refine ⟨List.ne_nil_of_length_pos ?_, List.length_take_le _ _⟩
          rw [List.length_take]
          omega
        · exact ih (items.drop size).length (by rw [List.length_drop]; omega) hrest rfl

theorem flatten_halves (items : List α) : (halves items).flatten = items := by
  simp [halves, List.take_append_drop]

theorem halves_divides {items batch : List α} (hsub : items.Sublist batch)
    (hseveral : 1 < items.length) : Divides batch (halves items) := by
  refine ⟨?_, (flatten_halves items).symm ▸ hsub, nofun⟩
  intro part hpart
  apply List.ne_nil_of_length_pos
  simp only [halves, List.mem_cons, List.not_mem_nil, or_false] at hpart
  rcases hpart with rfl | rfl
  · rw [List.length_take]
    omega
  · rw [List.length_drop]
    omega

theorem flatten_singles (items : List α) : (items.map fun item => [item]).flatten = items := by
  induction items with
  | nil => rfl
  | cons item rest ih => rw [List.map_cons, List.flatten_cons, ih, List.singleton_append]

theorem singles_divides {items : List α} (hseveral : items.length ≠ 1) :
    Divides items (items.map fun item => [item]) := by
  refine ⟨?_, (flatten_singles items).symm ▸ List.Sublist.refl _, by rwa [List.length_map]⟩
  intro part hpart
  obtain ⟨item, -, rfl⟩ := List.mem_map.mp hpart
  exact List.cons_ne_nil _ _

theorem nil_divides (batch : List α) : Divides batch [] :=
  ⟨nofun, List.nil_sublist _, nofun⟩

theorem Divides.part_sublist {batch : List α} {parts : List (List α)} (h : Divides batch parts) :
    ∀ part ∈ parts, part.Sublist batch :=
  fun _ hpart => (List.sublist_flatten_of_mem hpart).trans h.sublist

theorem Divides.map {β : Type} {batch : List α} {parts : List (List α)} (h : Divides batch parts)
    (f : α → β) : Divides (batch.map f) (parts.map (List.map f)) := by
  refine ⟨?_, ?_, by rw [List.length_map]; exact h.not_one⟩
  · intro part hpart
    obtain ⟨part', hpart', rfl⟩ := List.mem_map.mp hpart
    exact fun hnil => h.part_ne part' hpart' (List.map_eq_nil_iff.mp hnil)
  · rw [← List.map_flatten]
    exact h.sublist.map f

/-! ## One try -/

theorem weight_append (first second : List (List α)) :
    weight (first ++ second) = weight first + weight second := by
  simp [weight]

theorem weight_cons (batch : List α) (left : List (List α)) :
    weight (batch :: left) = 2 * batch.length - 1 + weight left := rfl

theorem weight_perm {left left' : List (List α)} (h : left.Perm left') :
    weight left = weight left' :=
  (h.map _).sum_nat

theorem weight_le (left : List (List α)) : weight left ≤ 2 * left.flatten.length := by
  induction left with
  | nil => exact Nat.le_refl 0
  | cons batch rest ih =>
      rw [weight_cons, List.flatten_cons, List.length_append]
      omega

/-- Parts weigh less by one for each of them. -/
theorem weight_add_length {left : List (List α)} (hsome : ∀ batch ∈ left, batch ≠ []) :
    weight left + left.length = 2 * left.flatten.length := by
  induction left with
  | nil => rfl
  | cons batch rest ih =>
      have hpos := List.length_pos_of_ne_nil (hsome batch List.mem_cons_self)
      have hrest := ih fun other hmem => hsome other (List.mem_cons_of_mem _ hmem)
      rw [weight_cons, List.flatten_cons, List.length_append, List.length_cons]
      omega

theorem length_le_items {left : List (List α)} (hsome : ∀ batch ∈ left, batch ≠ []) :
    left.length ≤ left.flatten.length := by
  induction left with
  | nil => exact Nat.le_refl 0
  | cons batch rest ih =>
      have hpos := List.length_pos_of_ne_nil (hsome batch List.mem_cons_self)
      have hrest := ih fun other hmem => hsome other (List.mem_cons_of_mem _ hmem)
      rw [List.flatten_cons, List.length_append, List.length_cons]
      omega

theorem Divides.weight_lt {batch : List α} {parts : List (List α)} (h : Divides batch parts)
    (hsome : batch ≠ []) : weight parts < 2 * batch.length - 1 := by
  have hparts := weight_add_length h.part_ne
  have hsub := h.sublist.length_le
  have hpos := List.length_pos_of_ne_nil hsome
  have hcount := h.not_one
  cases parts with
  | nil =>
      rw [weight, List.map_nil, List.sum_nil]
      omega
  | cons part rest =>
      rw [List.length_cons] at hparts hcount
      omega

section Takes

variable {batch : List α} {parts left left' : List (List α)}

theorem Takes.mem (htakes : Takes batch parts left left') : batch ∈ left := by
  obtain ⟨rest, hleft, -⟩ := htakes
  exact hleft.mem_iff.mpr List.mem_cons_self

theorem Takes.mem_after (htakes : Takes batch parts left left') {other : List α}
    (hother : other ∈ left') : other ∈ parts ∨ other ∈ left := by
  obtain ⟨rest, hleft, hleft'⟩ := htakes
  rcases List.mem_append.mp (hleft'.mem_iff.mp hother) with hpart | hrest
  · exact .inl hpart
  · exact .inr (hleft.mem_iff.mpr (List.mem_cons_of_mem _ hrest))

/-- The items of the batch that are not put back leave the list. -/
theorem Takes.items (htakes : Takes batch parts left left') :
    ∃ rest, left.flatten.Perm (batch ++ rest) ∧ left'.flatten.Perm (parts.flatten ++ rest) := by
  obtain ⟨rest, hleft, hleft'⟩ := htakes
  refine ⟨rest.flatten, hleft.flatten, ?_⟩
  rw [← List.flatten_append]
  exact hleft'.flatten

theorem Takes.weight_lt (htakes : Takes batch parts left left') (hdivides : Divides batch parts)
    (hfresh : Fresh left) : weight left' < weight left := by
  have hbatch := hfresh.batch_ne batch htakes.mem
  obtain ⟨rest, hleft, hleft'⟩ := htakes
  rw [weight_perm hleft, weight_perm hleft', weight_append, weight_cons]
  exact Nat.add_lt_add_right (hdivides.weight_lt hbatch) _

theorem Takes.fresh (htakes : Takes batch parts left left') (hdivides : Divides batch parts)
    (hfresh : Fresh left) : Fresh left' := by
  constructor
  case batch_ne =>
    intro other hother
    rcases htakes.mem_after hother with hpart | hleft
    · exact hdivides.part_ne other hpart
    · exact hfresh.batch_ne other hleft
  case distinct =>
    obtain ⟨rest, hitems, hitems'⟩ := htakes.items
    have hnodup := hitems.nodup_iff.mp hfresh.distinct
    exact hitems'.nodup_iff.mpr (hnodup.sublist (hdivides.sublist.append_right rest))

theorem Takes.subset (htakes : Takes batch parts left left') (hdivides : Divides batch parts)
    {item : α} (hitem : item ∈ left'.flatten) : item ∈ left.flatten := by
  obtain ⟨rest, hitems, hitems'⟩ := htakes.items
  rw [hitems.mem_iff]
  exact (hdivides.sublist.append_right rest).subset (hitems'.mem_iff.mp hitem)

/-- What is not put back is not on the list any more. -/
theorem Takes.gone (htakes : Takes batch parts left left') (hfresh : Fresh left) {item : α}
    (hitem : item ∈ batch) (hpart : item ∉ parts.flatten) : item ∉ left'.flatten := by
  obtain ⟨rest, hitems, hitems'⟩ := htakes.items
  have hapart := (List.nodup_append.mp (hitems.nodup_iff.mp hfresh.distinct)).2.2
  rw [hitems'.mem_iff]
  intro hmem
  rcases List.mem_append.mp hmem with hparts | hrest
  · exact hpart hparts
  · exact hapart item hitem item hrest rfl

theorem Takes.length (htakes : Takes batch parts left left') :
    left.flatten.length + parts.flatten.length = left'.flatten.length + batch.length := by
  obtain ⟨rest, hitems, hitems'⟩ := htakes.items
  rw [hitems.length_eq, hitems'.length_eq, List.length_append, List.length_append]
  omega

theorem Takes.map {β : Type} (htakes : Takes batch parts left left') (f : α → β) :
    Takes (batch.map f) (parts.map (List.map f)) (left.map (List.map f))
      (left'.map (List.map f)) := by
  obtain ⟨rest, hleft, hleft'⟩ := htakes
  refine ⟨rest.map (List.map f), hleft.map _, ?_⟩
  rw [← List.map_append]
  exact hleft'.map _

/-- Where the work is kept in several lists, the batch at the head of one is taken. -/
theorem takes_of_head {queues : List (List (List α))} {i : ℕ} {rest : List (List α)}
    (hqueue : queues[i]? = some (batch :: rest)) (parts : List (List α)) :
    Takes batch parts queues.flatten (queues.set i (parts ++ rest)).flatten := by
  induction queues generalizing i with
  | nil => cases hqueue
  | cons first others ih =>
      cases i with
      | zero =>
          cases hqueue
          refine ⟨rest ++ others.flatten, List.Perm.refl _, ?_⟩
          rw [List.set_cons_zero, List.flatten_cons, List.append_assoc]
      | succ i =>
          obtain ⟨left, hleft, hleft'⟩ := ih ((List.getElem?_cons_succ).symm.trans hqueue)
          refine ⟨first ++ left, ?_, ?_⟩
          · rw [List.flatten_cons]
            exact (hleft.append_left first).trans List.perm_middle
          · rw [List.set_cons_succ, List.flatten_cons]
            refine (hleft'.append_left first).trans ?_
            rw [← List.append_assoc, ← List.append_assoc]
            exact List.perm_append_comm.append_right left

end Takes

/-! ## Runs -/

/-- Each step of the machine that an admitted action makes is a try of one batch, which it emits
with the parts put back, or leaves the list as it is. -/
def Works {S A O : Type} (m : Machine S A O) (guard : S → A → Prop) (left : S → List (List α))
    (batch : O → List α) (parts : O → List (List α)) : Prop :=
  ∀ s a, guard s a → (m.out s a = [] ∧ left (m.step s a) = left s) ∨
    ∃ o, m.out s a = [o] ∧ Takes (batch o) (parts o) (left s) (left (m.step s a)) ∧
      Divides (batch o) (parts o)

section Runs

variable {S A O : Type} {m : Machine S A O} {guard : S → A → Prop} {left : S → List (List α)}
  {batch : O → List α}
  {parts : O → List (List α)} {s : S} {actions : List A}

theorem Works.fresh_step (h : Works m guard left batch parts) {a : A} (hfresh : Fresh (left s))
    (hguard : guard s a) : Fresh (left (m.step s a)) := by
  rcases h s a hguard with ⟨-, hsame⟩ | ⟨o, -, htakes, hdivides⟩
  · rwa [hsame]
  · exact htakes.fresh hdivides hfresh

theorem Works.fresh_run (h : Works m guard left batch parts) (hfresh : Fresh (left s))
    (halong : m.Along guard s actions) : Fresh (left (m.run s actions)) :=
  m.invariant_run (I := fun s => Fresh (left s)) (fun _ _ => h.fresh_step) hfresh halong

/-- A list is worked off in at most `weight` tries. -/
theorem Works.bounded (h : Works m guard left batch parts) (hfresh : Fresh (left s))
    (halong : m.Along guard s actions) :
    (m.outputs s actions).length + weight (left (m.run s actions)) ≤ weight (left s) := by
  have hrun := m.history_run
    (J := fun past now => Fresh (left now) ∧ past.length + weight (left now) ≤ weight (left s))
    (by
      rintro past now a ⟨hnow, hbound⟩ hguard
      refine ⟨h.fresh_step hnow hguard, ?_⟩
      rw [List.length_append]
      rcases h now a hguard with ⟨hnone, hsame⟩ | ⟨o, hone, htakes, hdivides⟩
      · rwa [hnone, hsame]
      · have hless := htakes.weight_lt hdivides hnow
        rw [hone, List.length_singleton]
        omega)
    [] ⟨hfresh, Nat.le_of_eq (Nat.zero_add _)⟩ halong
  exact hrun.2

theorem eq_nil_of_weight {left : List (List α)} (hfresh : Fresh left) (hzero : weight left = 0) :
    left = [] := by
  cases left with
  | nil => rfl
  | cons batch rest =>
      have hpos := List.length_pos_of_ne_nil (hfresh.batch_ne batch List.mem_cons_self)
      rw [weight_cons] at hzero
      omega

/-- Where every action tries a batch while there is one, enough actions work the list off. -/
theorem Works.ends (h : Works m guard left batch parts)
    (hbusy : ∀ s a, left s ≠ [] → m.out s a ≠ []) (hfresh : Fresh (left s))
    (halong : m.Along guard s actions)
    (hlong : weight (left s) ≤ actions.length) : left (m.run s actions) = [] := by
  induction actions generalizing s with
  | nil => exact eq_nil_of_weight hfresh (Nat.le_zero.mp hlong)
  | cons a rest ih =>
      obtain ⟨hguard, halong⟩ := halong
      refine ih (h.fresh_step hfresh hguard) halong ?_
      rcases h s a hguard with ⟨hnone, hsame⟩ | ⟨o, -, htakes, hdivides⟩
      · have hdone : left s = [] := by
          by_contra hleft
          exact hbusy s a hleft hnone
        rw [hsame, hdone]
        exact Nat.zero_le _
      · have hless := htakes.weight_lt hdivides hfresh
        rw [List.length_cons] at hlong
        omega

/-- What holds of all batches at the start, and of the parts of a batch that it holds of, holds of
every batch tried or left. -/
theorem Works.hereditary (h : Works m guard left batch parts) {P : List α → Prop}
    (hparts : ∀ batch part, part.Sublist batch → P batch → P part)
    (hstart : ∀ batch ∈ left s, P batch) (halong : m.Along guard s actions) :
    (∀ o ∈ m.outputs s actions, P (batch o)) ∧ ∀ other ∈ left (m.run s actions), P other := by
  have hrun := m.history_run
    (J := fun past now => (∀ o ∈ past, P (batch o)) ∧ ∀ other ∈ left now, P other)
    (by
      rintro past now a ⟨hpast, hleft⟩ hguard
      rcases h now a hguard with ⟨hnone, hsame⟩ | ⟨o, hone, htakes, hdivides⟩
      · rw [hnone, hsame, List.append_nil]
        exact ⟨hpast, hleft⟩
      · have hbatch := hleft _ htakes.mem
        constructor
        · intro o' hmem
          rw [hone] at hmem
          rcases List.mem_append.mp hmem with hold | hnew
          · exact hpast o' hold
          · exact List.mem_singleton.mp hnew ▸ hbatch
        · intro other hother
          rcases htakes.mem_after hother with hpart | hkept
          · exact hparts (batch o) other (hdivides.part_sublist other hpart) hbatch
          · exact hleft other hkept)
    [] ⟨nofun, hstart⟩ halong
  exact hrun

theorem Works.tried_ne (h : Works m guard left batch parts) (hfresh : Fresh (left s))
    (halong : m.Along guard s actions) : ∀ o ∈ m.outputs s actions, batch o ≠ [] := by
  refine m.outputs_forall (I := fun s => Fresh (left s)) (fun _ _ => h.fresh_step) ?_ hfresh halong
  intro now a hnow hguard o ho
  rcases h now a hguard with ⟨hnone, -⟩ | ⟨tried, hone, htakes, -⟩
  · rw [hnone] at ho
    cases ho
  · rw [hone] at ho
    exact List.mem_singleton.mp ho ▸ hnow.batch_ne _ htakes.mem

theorem Works.subset (h : Works m guard left batch parts) (halong : m.Along guard s actions)
    {item : α} (hitem : item ∈ (left (m.run s actions)).flatten) : item ∈ (left s).flatten := by
  have hrun :=
    m.invariant_run (I := fun now => ∀ item ∈ (left now).flatten, item ∈ (left s).flatten)
    (by
      intro now a hnow hguard item hitem
      rcases h now a hguard with ⟨-, hsame⟩ | ⟨o, -, htakes, hdivides⟩
      · rw [hsame] at hitem
        exact hnow item hitem
      · exact hnow item (htakes.subset hdivides hitem))
    (fun _ hitem => hitem) halong
  exact hrun item hitem

/-- Only listed items are tried. -/
theorem Works.tried_mem (h : Works m guard left batch parts)
    (halong : m.Along guard s actions) {o : O}
    (ho : o ∈ m.outputs s actions) {item : α} (hitem : item ∈ batch o) :
    item ∈ (left s).flatten := by
  have hrun := h.hereditary (P := fun batch => ∀ item ∈ batch, item ∈ (left s).flatten)
    (fun batch part hsub hbatch item hitem => hbatch item (hsub.subset hitem))
    (fun batch hbatch item hitem => List.mem_flatten.mpr ⟨batch, hbatch, hitem⟩) halong
  exact hrun.1 o ho item hitem

/-- Every listed item is tried or still on the list. -/
theorem Works.covered (h : Works m guard left batch parts) (halong : m.Along guard s actions)
    {item : α} (hitem : item ∈ (left s).flatten) :
    (∃ o ∈ m.outputs s actions, item ∈ batch o) ∨ item ∈ (left (m.run s actions)).flatten := by
  have hrun := m.history_run
    (J := fun past now => (∃ o ∈ past, item ∈ batch o) ∨ item ∈ (left now).flatten)
    (by
      rintro past now a (⟨o, ho, hbatch⟩ | hleft) hguard
      · exact .inl ⟨o, List.mem_append_left _ ho, hbatch⟩
      · rcases h now a hguard with ⟨-, hsame⟩ | ⟨o, hone, htakes, -⟩
        · exact .inr (hsame ▸ hleft)
        · obtain ⟨rest, hitems, hitems'⟩ := htakes.items
          rcases List.mem_append.mp (hitems.mem_iff.mp hleft) with hbatch | hrest
          · exact .inl ⟨o, List.mem_append_right _ (hone ▸ List.mem_cons_self), hbatch⟩
          · exact .inr (hitems'.mem_iff.mpr (List.mem_append_right _ hrest)))
    [] (.inr hitem) halong
  exact hrun

/-- What a try does not put back is never tried again. -/
theorem Works.never_again (h : Works m guard left batch parts) (hfresh : Fresh (left s))
    (halong : m.Along guard s actions) {early late : List O} {o : O}
    (hsplit : m.outputs s actions = early ++ o :: late) {item : α} (hitem : item ∈ batch o)
    (hpart : item ∉ (parts o).flatten) : ∀ later ∈ late, item ∉ batch later := by
  induction actions generalizing s early with
  | nil => simp at hsplit
  | cons a rest ih =>
      obtain ⟨hguard, halong⟩ := halong
      have hnext := h.fresh_step hfresh hguard
      rw [Machine.outputs_cons] at hsplit
      rcases h s a hguard with ⟨hnone, -⟩ | ⟨first, hone, htakes, -⟩
      · rw [hnone, List.nil_append] at hsplit
        exact ih hnext halong hsplit
      · rw [hone, List.singleton_append] at hsplit
        cases early with
        | cons _ early =>
            rw [List.cons_append, List.cons.injEq] at hsplit
            exact ih hnext halong hsplit.2
        | nil =>
            rw [List.nil_append, List.cons.injEq] at hsplit
            obtain ⟨rfl, hrest⟩ := hsplit
            intro later hlater hagain
            exact htakes.gone hfresh hitem hpart (h.tried_mem halong (hrest ▸ hlater) hagain)

/-- Where every try settles its whole batch or puts all of it back, what was settled and what is
left are the items of the start. -/
theorem Works.settled (h : Works m guard left batch parts) (halong : m.Along guard s actions)
    (hwhole : ∀ o ∈ m.outputs s actions, parts o = [] ∨ (parts o).flatten.Perm (batch o)) :
    ((m.outputs s actions).flatMap (fun o => if parts o = [] then batch o else []) ++
      (left (m.run s actions)).flatten).Perm (left s).flatten := by
  induction actions generalizing s with
  | nil => exact List.Perm.refl _
  | cons a rest ih =>
      obtain ⟨hguard, halong⟩ := halong
      rw [Machine.outputs_cons] at hwhole ⊢
      have hrest := ih halong fun o ho => hwhole o (List.mem_append_right _ ho)
      rw [Machine.run_cons]
      rcases h s a hguard with ⟨hnone, hsame⟩ | ⟨o, hone, htakes, -⟩
      · rw [hnone, List.nil_append, ← hsame]
        exact hrest
      · obtain ⟨others, hitems, hitems'⟩ := htakes.items
        rw [hone, List.singleton_append, List.flatMap_cons, List.append_assoc]
        refine (hrest.append_left _).trans ?_
        split
        next hdone =>
          rw [hdone, List.flatten_nil, List.nil_append] at hitems'
          exact (hitems'.append_left _).trans hitems.symm
        next hback =>
          have hperm :=
            (hwhole o (hone ▸ List.mem_append_left _ List.mem_cons_self)).resolve_left hback
          exact hitems'.trans ((hperm.append_right others).trans hitems.symm)

/-- Where, moreover, every try keeps of what it settles the items that `P` holds of, a list that is
worked off keeps those items of it. -/
theorem Works.kept (h : Works m guard left batch parts) (halong : m.Along guard s actions)
    (hwhole : ∀ o ∈ m.outputs s actions, parts o = [] ∨ (parts o).flatten.Perm (batch o))
    {P : α → Bool} {kept : O → List α}
    (hkept : ∀ o ∈ m.outputs s actions, kept o = (if parts o = [] then batch o else []).filter P)
    (hdone : left (m.run s actions) = []) :
    ((m.outputs s actions).flatMap kept).Perm ((left s).flatten.filter P) := by
  have hsettled := h.settled halong hwhole
  rw [hdone, List.flatten_nil, List.append_nil] at hsettled
  rw [List.flatMap_congr hkept, ← List.filter_flatMap]
  exact hsettled.filter P

end Runs

end Worklist
