import Mathlib.Data.List.Infix
import Mathlib.Data.List.TakeWhile

/-! # Marks in a text

The first occurrence of a mark cuts a text in two. A separator that the mark does not contain
keeps what is found on one side of it apart from what is on the other.
-/

namespace Text

variable {α : Type} [DecidableEq α]

/-- What comes before and after the first occurrence of `mark`. -/
def cut (mark : List α) : List α → Option (List α × List α)
  | [] => none
  | x :: rest =>
      if mark.isPrefixOf (x :: rest) then
        some ([], (x :: rest).drop mark.length)
      else
        (cut mark rest).map fun (before, after) => (x :: before, after)

/-- What comes before the first occurrence of `mark`, the whole text if there is none. -/
def firstPiece (mark text : List α) : List α :=
  match cut mark text with
  | some (before, _) => before
  | none => text

/-- What comes between the first two occurrences of `mark`, or after the only one. -/
def secondPiece (mark text : List α) : Option (List α) :=
  (cut mark text).map fun (_, after) => firstPiece mark after

variable {mark line rest : List α} {sep : α}

omit [DecidableEq α] in
/-- A mark without the separator that begins before it ends before it. -/
theorem prefix_of_sep (hsep : sep ∉ mark) (h : mark <+: line ++ sep :: rest) : mark <+: line := by
  induction line generalizing mark with
  | nil =>
      cases mark with
      | nil => exact List.prefix_refl _
      | cons first others =>
          obtain ⟨rfl, -⟩ := List.cons_prefix_cons.mp h
          exact absurd List.mem_cons_self hsep
  | cons x line ih =>
      cases mark with
      | nil => exact List.nil_prefix
      | cons first others =>
          obtain ⟨rfl, hrest⟩ := List.cons_prefix_cons.mp h
          exact List.cons_prefix_cons.mpr ⟨rfl, ih (List.not_mem_of_not_mem_cons hsep) hrest⟩

/-- The search goes on behind a line that does not hold the mark. -/
theorem cut_append_sep (hmark : mark ≠ []) (hsep : sep ∉ mark) (hline : ¬mark <:+: line) :
    cut mark (line ++ sep :: rest) =
      (cut mark rest).map fun (before, after) => (line ++ sep :: before, after) := by
  induction line with
  | nil =>
      have hmiss : ¬mark.isPrefixOf (sep :: rest) = true := by
        rw [List.isPrefixOf_iff_prefix]
        intro hbegins
        have hempty : mark <+: [] := prefix_of_sep hsep hbegins
        exact hmark (List.prefix_nil.mp hempty)
      simp [cut, hmiss]
  | cons x line ih =>
      have hmiss : ¬mark.isPrefixOf (x :: (line ++ sep :: rest)) = true := by
        rw [List.isPrefixOf_iff_prefix]
        intro hbegins
        have hfirst : mark <+: x :: line := prefix_of_sep hsep hbegins
        exact hline hfirst.isInfix
      have hshorter : ¬mark <:+: line :=
        fun hinside => hline (hinside.trans (List.suffix_cons x line).isInfix)
      rw [List.cons_append, cut, if_neg hmiss, ih hshorter, Option.map_map]
      rfl

/-- The mark is found behind a line that does not hold its first sign. -/
theorem cut_append_mark {first : α} {others : List α} (hline : first ∉ line) :
    cut (first :: others) (line ++ (first :: others ++ rest)) = some (line, rest) := by
  induction line with
  | nil => simp [cut]
  | cons x line ih =>
      obtain ⟨hne, hrest⟩ := not_or.mp (List.mem_cons.not.mp hline)
      rw [List.cons_append, cut, if_neg, ih hrest]
      · rfl
      · simp [hne]

/-- A text is put together again from what the mark cuts it into. -/
theorem eq_of_cut {text before after : List α} (h : cut mark text = some (before, after)) :
    text = before ++ mark ++ after := by
  induction text generalizing before with
  | nil => cases h
  | cons x text ih =>
      rw [cut] at h
      split at h
      next hbegins =>
        cases h
        obtain ⟨tail, htail⟩ := List.isPrefixOf_iff_prefix.mp hbegins
        rw [← htail, List.drop_left]
        rfl
      next =>
        obtain ⟨⟨found, left⟩, hcut, heq⟩ := Option.map_eq_some_iff.mp h
        cases heq
        rw [ih hcut]
        rfl

theorem cut_eq_none (hline : ¬mark <:+: line) : cut mark line = none := by
  induction line with
  | nil => rfl
  | cons x line ih =>
      rw [cut, if_neg, ih]
      · rfl
      · exact fun hinside => hline (hinside.trans (List.suffix_cons x line).isInfix)
      · rw [List.isPrefixOf_iff_prefix]
        exact fun hbegins => hline hbegins.isInfix

theorem firstPiece_append_sep (hmark : mark ≠ []) (hsep : sep ∉ mark) (hline : ¬mark <:+: line) :
    firstPiece mark (line ++ sep :: rest) = line ++ sep :: firstPiece mark rest := by
  unfold firstPiece
  rw [cut_append_sep hmark hsep hline]
  cases cut mark rest <;> rfl

theorem firstPiece_append_mark {first : α} {others : List α} (hline : first ∉ line) :
    firstPiece (first :: others) (line ++ (first :: others ++ rest)) = line := by
  rw [firstPiece, cut_append_mark hline]

theorem firstPiece_of_not_infix (hline : ¬mark <:+: line) : firstPiece mark line = line := by
  rw [firstPiece, cut_eq_none hline]

/-- Behind the first piece the text is at its end or at the mark. -/
theorem exists_firstPiece_append (mark text : List α) :
    ∃ tail, text = firstPiece mark text ++ tail ∧ (tail = [] ∨ mark <+: tail) := by
  unfold firstPiece
  cases hcut : cut mark text with
  | none => exact ⟨[], (List.append_nil text).symm, .inl rfl⟩
  | some parts =>
      obtain ⟨before, after⟩ := parts
      refine ⟨mark ++ after, ?_, .inr (List.prefix_append mark after)⟩
      rw [eq_of_cut hcut, List.append_assoc]

theorem secondPiece_append_sep (hmark : mark ≠ []) (hsep : sep ∉ mark) (hline : ¬mark <:+: line) :
    secondPiece mark (line ++ sep :: rest) = secondPiece mark rest := by
  rw [secondPiece, cut_append_sep hmark hsep hline, Option.map_map]
  rfl

theorem secondPiece_of_not_infix (hline : ¬mark <:+: line) : secondPiece mark line = none := by
  rw [secondPiece, cut_eq_none hline, Option.map_none]

end Text
