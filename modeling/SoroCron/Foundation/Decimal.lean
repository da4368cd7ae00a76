import Mathlib.Algebra.Group.Nat.Defs
import Mathlib.Data.List.DropRight
import Mathlib.Data.Nat.Basic

/-! # Decimal digits

The number that a text of digits stands for, texts filled up with zeros to a given length, and
texts without zeros that say nothing.
-/

namespace Decimal

/-- The number written by the digits of `text`; nothing written is zero. -/
def value (text : List Char) : ℕ := Nat.ofDigitChars 10 text 0

def Digits (text : List Char) : Prop := ∀ c ∈ text, c.isDigit = true

/-- Zeros in front, up to a length of `n`. -/
def padStart (n : ℕ) (text : List Char) : List Char := List.replicate (n - text.length) '0' ++ text

/-- Zeros behind, up to a length of `n`. -/
def padEnd (n : ℕ) (text : List Char) : List Char := text ++ List.replicate (n - text.length) '0'

/-- All zeros at the end taken away. -/
def stripZeros (text : List Char) : List Char := text.rdropWhile (· = '0')

variable {text text' : List Char} {c : Char} {n : ℕ}

/-! ## Values -/

theorem value_append (first second : List Char) :
    value (first ++ second) = 10 ^ second.length * value first + value second := by
  rw [value, Nat.ofDigitChars_append, Nat.ofDigitChars_eq_ofDigitChars_zero]
  rfl

theorem value_cons (c : Char) (text : List Char) :
    value (c :: text) = 10 ^ text.length * (c.toNat - '0'.toNat) + value text := by
  rw [value, Nat.ofDigitChars_cons, Nat.mul_zero, Nat.zero_add,
    Nat.ofDigitChars_eq_ofDigitChars_zero]
  rfl

theorem value_zeros (n : ℕ) : value (List.replicate n '0') = 0 := by
  rw [value, Nat.ofDigitChars_replicate_zero, Nat.mul_zero]

theorem value_toDigits (n : ℕ) : value (Nat.toDigits 10 n) = n := Nat.ofDigitChars_ten_toDigits

theorem digits_toDigits (n : ℕ) : Digits (Nat.toDigits 10 n) :=
  fun _ hmem => Nat.isDigit_of_mem_toDigits (by decide) (by decide) hmem

theorem digit_bounds (hdigit : c.isDigit = true) : '0'.toNat ≤ c.toNat ∧ c.toNat ≤ '9'.toNat := by
  simp only [Char.isDigit, Bool.and_eq_true, decide_eq_true_eq, ge_iff_le,
    UInt32.le_iff_toNat_le] at hdigit
  exact hdigit

theorem value_lt (hdigits : Digits text) : value text < 10 ^ text.length := by
  induction text with
  | nil => exact Nat.one_pos
  | cons c text ih =>
      have hrest := ih fun d hmem => hdigits d (List.mem_cons_of_mem c hmem)
      have hdigit : c.toNat - '0'.toNat ≤ 9 :=
        Nat.sub_le_sub_right (digit_bounds (hdigits c List.mem_cons_self)).2 _
      have hfirst := Nat.mul_le_mul_left (10 ^ text.length) hdigit
      rw [value_cons, List.length_cons, Nat.pow_succ]
      omega

/-- Digits of one length are told apart by their value. -/
theorem eq_of_value_eq (hdigits : Digits text) (hdigits' : Digits text')
    (hlength : text.length = text'.length) (hvalue : value text = value text') : text = text' := by
  induction text generalizing text' with
  | nil => exact (List.length_eq_zero_iff.mp hlength.symm).symm
  | cons c text ih =>
      cases text' with
      | nil => cases hlength
      | cons c' text' =>
          have hsame : text.length = text'.length := Nat.succ.inj hlength
          have hrest := fun d hmem => hdigits d (List.mem_cons_of_mem c hmem)
          have hrest' := fun d hmem => hdigits' d (List.mem_cons_of_mem c' hmem)
          have hlt := value_lt hrest
          have hlt' := value_lt hrest'
          rw [value_cons, value_cons, ← hsame] at hvalue
          rw [← hsame] at hlt'
          have hfirst := congrArg (· / 10 ^ text.length) hvalue
          have hsecond := congrArg (· % 10 ^ text.length) hvalue
          simp only [Nat.mul_add_div (Nat.pow_pos (show 0 < 10 by decide)), Nat.div_eq_of_lt hlt,
            Nat.div_eq_of_lt hlt', Nat.add_zero] at hfirst
          simp only [Nat.mul_add_mod, Nat.mod_eq_of_lt hlt, Nat.mod_eq_of_lt hlt'] at hsecond
          have hbounds := digit_bounds (hdigits c List.mem_cons_self)
          have hbounds' := digit_bounds (hdigits' c' List.mem_cons_self)
          have hchar : c = c' := Char.toNat_inj.mp (by omega)
          rw [hchar, ih hrest hrest' hsame hsecond]

/-! ## Numbers without leading zeros -/

/-- What is written of a number does not begin with a zero, except zero itself. -/
theorem toDigits_noLeadingZero (n : ℕ) (hzero : (Nat.toDigits 10 n).head? = some '0') :
    Nat.toDigits 10 n = ['0'] := by
  obtain ⟨rest, hrest⟩ := List.head?_eq_some_iff.mp hzero
  rcases Nat.eq_zero_or_pos rest.length with hnone | hmore
  · rw [hrest, List.length_eq_zero_iff.mp hnone]
  · -- The digits behind the zero would be enough.
    have hdigits : Digits rest :=
      fun d hmem => digits_toDigits n d (hrest ▸ List.mem_cons_of_mem _ hmem)
    have hvalue : n = value rest := by
      calc n = value (Nat.toDigits 10 n) := (value_toDigits n).symm
        _ = value rest := by rw [hrest, value_cons, Nat.sub_self, Nat.mul_zero, Nat.zero_add]
    have hshort : (Nat.toDigits 10 n).length ≤ rest.length := by
      rw [Nat.length_toDigits_le_iff (by decide) hmore, hvalue]
      exact value_lt hdigits
    rw [hrest, List.length_cons] at hshort
    omega

/-- Digits without leading zeros are what is written of their value. -/
theorem toDigits_value (hdigits : Digits text) (hne : text ≠ [])
    (hzero : text.head? = some '0' → text = ['0']) : Nat.toDigits 10 (value text) = text := by
  have hpos : 0 < text.length := List.length_pos_iff.mpr hne
  have hshort : (Nat.toDigits 10 (value text)).length ≤ text.length := by
    rw [Nat.length_toDigits_le_iff (by decide) hpos]
    exact value_lt hdigits
  have hlong : text.length ≤ (Nat.toDigits 10 (value text)).length := by
    cases text with
    | nil => exact absurd rfl hne
    | cons c rest =>
        rcases Nat.eq_zero_or_pos rest.length with hnone | hmore
        · rw [List.length_cons, hnone]
          exact Nat.length_toDigits_pos
        · have hfirst : c ≠ '0' := by
            rintro rfl
            have hsame := hzero rfl
            rw [List.cons.injEq] at hsame
            rw [hsame.2] at hmore
            cases hmore
          have hbounds := digit_bounds (hdigits c List.mem_cons_self)
          have hdigit : 1 ≤ c.toNat - '0'.toNat := by
            have hother : c.toNat ≠ '0'.toNat := fun heq => hfirst (Char.toNat_inj.mp heq)
            omega
          have hvalue : 10 ^ rest.length ≤ value (c :: rest) := by
            rw [value_cons]
            exact (Nat.le_mul_of_pos_right _ hdigit).trans (Nat.le_add_right _ _)
          have hmany : ¬ (Nat.toDigits 10 (value (c :: rest))).length ≤ rest.length := by
            rw [Nat.length_toDigits_le_iff (by decide) hmore]
            exact Nat.not_lt.mpr hvalue
          rw [List.length_cons]
          omega
  exact eq_of_value_eq (digits_toDigits _) hdigits (Nat.le_antisymm hshort hlong) (value_toDigits _)

/-! ## Filling up -/

theorem digits_zeros (n : ℕ) : Digits (List.replicate n '0') := by
  intro c hmem
  rw [List.eq_of_mem_replicate hmem]
  rfl

theorem Digits.append (h : Digits text) (h' : Digits text') : Digits (text ++ text') := by
  intro c hmem
  rcases List.mem_append.mp hmem with hfirst | hsecond
  · exact h c hfirst
  · exact h' c hsecond

theorem Digits.padStart (h : Digits text) (n : ℕ) : Digits (padStart n text) :=
  (digits_zeros _).append h

theorem Digits.stripZeros (h : Digits text) : Digits (stripZeros text) :=
  fun c hmem => h c ((List.rdropWhile_prefix _ _).subset hmem)

theorem length_padStart (hlength : text.length ≤ n) : (padStart n text).length = n := by
  rw [padStart, List.length_append, List.length_replicate]
  omega

theorem length_padEnd (hlength : text.length ≤ n) : (padEnd n text).length = n := by
  rw [padEnd, List.length_append, List.length_replicate]
  omega

theorem value_padStart (n : ℕ) (text : List Char) : value (padStart n text) = value text := by
  rw [padStart, value_append, value_zeros, Nat.mul_zero, Nat.zero_add]

/-- Zeros behind a fraction of `n` places are worth the places they fill. -/
theorem value_padEnd (n : ℕ) (text : List Char) :
    value (padEnd n text) = 10 ^ (n - text.length) * value text := by
  rw [padEnd, value_append, value_zeros, List.length_replicate, Nat.add_zero]

theorem stripZeros_append_zeros (text : List Char) (n : ℕ) :
    stripZeros (text ++ List.replicate n '0') = stripZeros text := by
  induction n with
  | zero => rw [List.replicate_zero, List.append_nil]
  | succ n ih =>
      rw [List.replicate_succ', ← List.append_assoc]
      exact (List.rdropWhile_concat_pos (· = '0') _ '0' rfl).trans ih

theorem stripZeros_padEnd (n : ℕ) (text : List Char) :
    stripZeros (padEnd n text) = stripZeros text :=
  stripZeros_append_zeros text _

theorem stripZeros_eq_self (hlast : text.getLast? ≠ some '0') : stripZeros text = text := by
  rw [stripZeros, List.rdropWhile_eq_self_iff]
  intro hne hzero
  exact hlast (by rw [List.getLast?_eq_some_getLast hne, of_decide_eq_true hzero])

theorem stripZeros_noTrailingZero (text : List Char) : (stripZeros text).getLast? ≠ some '0' := by
  intro hzero
  have hne : stripZeros text ≠ [] := by
    rintro hnil
    rw [hnil] at hzero
    cases hzero
  rw [List.getLast?_eq_some_getLast hne, Option.some.injEq] at hzero
  exact List.rdropWhile_last_not _ _ hne (decide_eq_true hzero)

theorem length_stripZeros_le (text : List Char) : (stripZeros text).length ≤ text.length :=
  (List.rdropWhile_prefix _ _).length_le

/-- The zeros taken away are put back. -/
theorem padEnd_stripZeros (hlength : text.length = n) : padEnd n (stripZeros text) = text := by
  subst hlength
  induction text using List.reverseRecOn with
  | nil => rfl
  | append_singleton text c ih =>
      by_cases hzero : c = '0'
      · subst hzero
        have hstrip : stripZeros (text ++ ['0']) = stripZeros text := stripZeros_append_zeros text 1
        have hle := length_stripZeros_le text
        rw [hstrip, List.length_append, padEnd, List.length_singleton, Nat.succ_sub hle,
          List.replicate_succ', ← List.append_assoc]
        exact congrArg (· ++ ['0']) ih
      · have hlast : (text ++ [c]).getLast? ≠ some '0' := by
          rw [List.getLast?_append_of_ne_nil _ (List.cons_ne_nil _ _)]
          exact fun h => hzero (Option.some.inj h)
        rw [stripZeros_eq_self hlast, padEnd, Nat.sub_self, List.replicate_zero, List.append_nil]

/-- Digits are what is written of their value, filled up to their length. -/
theorem padStart_value (hdigits : Digits text) (hne : text ≠ []) :
    padStart text.length (Nat.toDigits 10 (value text)) = text := by
  have hshort : (Nat.toDigits 10 (value text)).length ≤ text.length := by
    rw [Nat.length_toDigits_le_iff (by decide) (List.length_pos_iff.mpr hne)]
    exact value_lt hdigits
  apply eq_of_value_eq ((digits_toDigits _).padStart _) hdigits (length_padStart hshort)
  rw [value_padStart, value_toDigits]

end Decimal
