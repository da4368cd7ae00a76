import SoroCron.Foundation.Listing
import SoroCron.Foundation.Machine

/-! # Edges

A watcher looks again and again at which keys hold, and each time passes on the entries of the
keys that did not hold the last time.
-/

namespace Edges

variable {K V : Type} [DecidableEq K]

/-- The entries whose keys did not hold before. -/
def fresh (active : List K) (current : Listing K V) : List (K × V) :=
  current.entries.filter fun entry => entry.1 ∉ active

def watcher : Machine (List K) (Listing K V) (K × V) where
  step _ current := current.entries.map Prod.fst
  out active current := fresh active current

variable {active : List K} {current : Listing K V} {looks : List (Listing K V)} {key : K}
  {value : V}

theorem mem_fresh : (key, value) ∈ fresh active current ↔
    current.get key = some value ∧ key ∉ active := by
  rw [fresh, List.mem_filter, Listing.get_eq_some, decide_eq_true_eq]

omit [DecidableEq K] in
theorem get_isSome [DecidableEq K] :
    (current.get key).isSome = true ↔ key ∈ current.entries.map Prod.fst := by
  rw [← not_iff_not, ← Listing.get_eq_none, Option.isSome_iff_ne_none, not_not]

/-- What a watcher holds is what held when it last looked. -/
theorem mem_run : key ∈ (watcher (V := V)).run [] looks ↔
    ∃ last ∈ looks.getLast?, (last.get key).isSome = true := by
  cases looks using List.reverseRecOn with
  | nil => simp
  | append_singleton looks last =>
      rw [Machine.run_append, List.getLast?_append_of_ne_nil _ (List.cons_ne_nil _ _)]
      constructor
      · intro hmem
        exact ⟨last, rfl, get_isSome.mpr hmem⟩
      · rintro ⟨found, hfound, hsome⟩
        cases hfound
        exact get_isSome.mp hsome

end Edges
