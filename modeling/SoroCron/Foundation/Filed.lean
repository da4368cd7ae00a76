import Mathlib.Data.List.Dedup

/-! # Filing by key

Things arrive under a key, move to another key, and leave. What is filed under a key are
the things that are there now, each once, in the order of their last arrivals.
-/

namespace Filing

variable {I K : Type} [DecidableEq I] [DecidableEq K]

/-- What is filed under `key`, given all arrivals so far and where each thing is now. -/
def filed (arrivals : List I) (keyOf : I → Option K) (key : K) : List I :=
  arrivals.dedup.filter fun item => keyOf item = some key

section Filed

variable {arrivals : List I} {keyOf keyOf' : I → Option K} {key : K} {item : I}

/-- The last arrival comes last, and its earlier arrivals no longer count. -/
theorem dedup_concat (items : List I) (last : I) :
    (items ++ [last]).dedup = items.dedup.filter (· ≠ last) ++ [last] := by
  induction items with
  | nil => simp
  | cons head rest ih =>
      rw [List.cons_append]
      by_cases hrest : head ∈ rest
      · rw [List.dedup_cons_of_mem (List.mem_append_left _ hrest), List.dedup_cons_of_mem hrest, ih]
      · rw [List.dedup_cons_of_notMem hrest]
        by_cases hlast : head = last
        · subst hlast
          rw [List.dedup_cons_of_mem (by simp), ih, List.filter_cons_of_neg (by simp)]
        · rw [List.dedup_cons_of_notMem (by simp [hrest, hlast]), ih,
            List.filter_cons_of_pos (by simp [hlast]), List.cons_append]

theorem nodup_filed : (filed arrivals keyOf key).Nodup := (List.nodup_dedup arrivals).filter _

theorem mem_filed : item ∈ filed arrivals keyOf key ↔ item ∈ arrivals ∧ keyOf item = some key := by
  rw [filed, List.mem_filter, List.mem_dedup, decide_eq_true_iff]

/-- What leaves is taken off the list it was on. -/
theorem filed_leave (arrivals : List I) (key : K) (hgone : keyOf' item = none)
    (hothers : ∀ other, other ≠ item → keyOf' other = keyOf other) :
    filed arrivals keyOf' key = (filed arrivals keyOf key).erase item := by
  rw [nodup_filed.erase_eq_filter, filed, filed, List.filter_filter]
  congr 1
  funext other
  by_cases heq : other = item
  · subst heq
    simp [hgone]
  · simp [hothers other heq, heq]

/-- What arrives under a key is taken off the list it was on and comes last on its new one. -/
theorem filed_arrive (arrivals : List I) (key : K) {at' : K} (hthere : keyOf' item = some at')
    (hothers : ∀ other, other ≠ item → keyOf' other = keyOf other) :
    filed (arrivals ++ [item]) keyOf' key =
      (filed arrivals keyOf key).erase item ++ if key = at' then [item] else [] := by
  rw [nodup_filed.erase_eq_filter, filed, dedup_concat, List.filter_append, filed,
    List.filter_filter, List.filter_filter]
  congr 1
  · congr 1
    funext other
    by_cases heq : other = item
    · simp [heq]
    · simp [hothers other heq, heq]
  · simp [List.filter_cons, hthere, eq_comm]

end Filed

end Filing
