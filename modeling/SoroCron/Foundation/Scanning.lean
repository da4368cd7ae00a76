import Mathlib.Data.Nat.Notation
import Mathlib.Data.List.Basic

/-! # Global matches

Everything that a pattern matches in a text, from left to right and without overlaps: the search
goes on behind a match, and one sign further where there is none.
-/

namespace Scanning

variable {α M : Type}

/-- All matches after the next `skip` signs. At a position, `here` gives the match that begins there
and its length. -/
def scan (here : List α → Option (M × ℕ)) : ℕ → List α → List M
  | _, [] => []
  | skip + 1, _ :: rest => scan here skip rest
  | 0, first :: rest =>
      match here (first :: rest) with
      | some (found, length) => found :: scan here (length - 1) rest
      | none => scan here 0 rest

def matchAll (here : List α → Option (M × ℕ)) (text : List α) : List M := scan here 0 text

variable {here : List α → Option (M × ℕ)} {first : α} {rest : List α} {found : M}

theorem scan_eq (here : List α → Option (M × ℕ)) (skip : ℕ) (text : List α) :
    scan here skip text = matchAll here (text.drop skip) := by
  induction text generalizing skip with
  | nil =>
      rw [List.drop_nil, matchAll]
      cases skip with
      | zero => rfl
      | succ skip => rfl
  | cons first rest ih =>
      cases skip with
      | zero => rfl
      | succ skip => exact ih skip

@[simp] theorem matchAll_nil (here : List α → Option (M × ℕ)) : matchAll here [] = [] := rfl

theorem matchAll_miss (hmiss : here (first :: rest) = none) :
    matchAll here (first :: rest) = matchAll here rest := by
  rw [matchAll, scan, hmiss]
  rfl

theorem matchAll_hit {length : ℕ} (hhit : here (first :: rest) = some (found, length + 1)) :
    matchAll here (first :: rest) = found :: matchAll here (rest.drop length) := by
  rw [matchAll, scan, hhit]
  exact congrArg (found :: ·) (scan_eq here length rest)

/-- A match at the beginning is the first one. -/
theorem head?_matchAll {text : List α} {length : ℕ} (hne : text ≠ [])
    (hhit : here text = some (found, length)) : (matchAll here text).head? = some found := by
  cases text with
  | nil => exact absurd rfl hne
  | cons first rest =>
      rw [matchAll, scan, hhit]
      rfl

/-- The search passes over signs at which no match begins. -/
theorem matchAll_append {before : List α}
    (hmiss : ∀ sign ∈ before, ∀ rest, here (sign :: rest) = none)
    (after : List α) : matchAll here (before ++ after) = matchAll here after := by
  induction before with
  | nil => rfl
  | cons sign before ih =>
      rw [List.cons_append, matchAll_miss (hmiss sign List.mem_cons_self _)]
      exact ih fun other hmem => hmiss other (List.mem_cons_of_mem _ hmem)

/-- Induction along a search: a miss goes one sign further, a match to its end. -/
theorem matchAll_induction {motive : List α → List M → Prop} (here : List α → Option (M × ℕ))
    (hsize : ∀ text found length, here text = some (found, length) → text ≠ [] ∧ 0 < length)
    (hnil : motive [] [])
    (hmiss : ∀ sign rest, here (sign :: rest) = none → motive rest (matchAll here rest) →
      motive (sign :: rest) (matchAll here rest))
    (hhit : ∀ text found length, here text = some (found, length) →
      motive (text.drop length) (matchAll here (text.drop length)) →
      motive text (found :: matchAll here (text.drop length)))
    (text : List α) : motive text (matchAll here text) := by
  induction hlength : text.length using Nat.strongRecOn generalizing text with
  | ind size ih =>
      cases text with
      | nil => exact hnil
      | cons sign rest =>
          have hshorter : rest.length < size := hlength ▸ Nat.lt_succ_self _
          cases hhere : here (sign :: rest) with
          | none =>
              rw [matchAll_miss hhere]
              exact hmiss sign rest hhere (ih rest.length hshorter rest rfl)
          | some hit =>
              obtain ⟨found, length⟩ := hit
              obtain ⟨-, hpos⟩ := hsize _ _ _ hhere
              obtain ⟨length, rfl⟩ := Nat.exists_eq_add_one.mpr hpos
              rw [matchAll_hit hhere]
              apply hhit _ _ _ hhere
              rw [List.drop_succ_cons]
              apply ih _ _ _ rfl
              rw [List.length_drop]
              omega

/-- Put together, the matches leave out signs of the text and change none. -/
theorem matchAll_sublist {text : M → List α} (hpos : ∀ found, 0 < (text found).length)
    (hbegins : ∀ whole found length, here whole = some (found, length) →
      text found <+: whole ∧ length = (text found).length)
    (whole : List α) : ((matchAll here whole).map text).flatten.Sublist whole := by
  apply matchAll_induction (motive := fun whole found => (found.map text).flatten.Sublist whole)
  case hsize =>
    intro whole found length hhere
    obtain ⟨hbegins, rfl⟩ := hbegins _ _ _ hhere
    refine ⟨?_, hpos found⟩
    rintro rfl
    have hempty := List.prefix_nil.mp hbegins
    exact absurd (hpos found) (by simp [hempty])
  case hnil => exact List.Sublist.refl _
  case hmiss =>
    intro sign rest _ ih
    exact ih.cons sign
  case hhit =>
    intro whole found length hhere ih
    obtain ⟨⟨rest, rfl⟩, rfl⟩ := hbegins _ _ _ hhere
    rw [List.drop_left] at ih ⊢
    rw [List.map_cons, List.flatten_cons]
    exact ih.append_left _

end Scanning
