import Mathlib.Data.List.TakeWhile
import Mathlib.Data.Rat.Cast.Order
import Mathlib.Tactic.FieldSimp
import Mathlib.Tactic.Positivity
import SoroCron.Foundation.Decimal

/-! # Amounts as text

How the SDK writes an amount of base units with a decimal point, and reads one back.
-/

namespace SoroCron.Sdk

open Decimal

/-! ## Writing and reading -/

/-- What `\s` matches. -/
def isSpace (c : Char) : Bool :=
  c.toNat ∈ [9, 10, 11, 12, 13, 32, 160, 5760, 8232, 8233, 8239, 8287, 12288, 65279] ||
    (8192 ≤ c.toNat && c.toNat ≤ 8202)

/-- The digits behind a point, and no bare point. -/
def fraction (frac : List Char) : List Char := if frac = [] then [] else '.' :: frac

def formatAmount (amount : ℤ) (decimals : ℕ := 7) : List Char :=
  let abs := amount.natAbs
  let base := 10 ^ decimals
  let whole := Nat.toDigits 10 (abs / base)
  let frac := stripZeros (padStart decimals (Nat.toDigits 10 (abs % base)))
  (if amount < 0 then ['-'] else []) ++ whole ++ fraction frac

/-- The groups of `/^\s*(\d+)(?:\.(\d*))?\s*$/`. Blanks, digits and the point differ, so each
part is as long as it can be. -/
def groups (text : List Char) : Option (List Char × Option (List Char)) :=
  let text := text.dropWhile isSpace
  let whole := text.takeWhile Char.isDigit
  if whole = [] then
    none
  else
    match text.dropWhile Char.isDigit with
    | '.' :: rest =>
        if (rest.dropWhile Char.isDigit).all isSpace then
          some (whole, some (rest.takeWhile Char.isDigit))
        else
          none
    | rest => if rest.all isSpace then some (whole, none) else none

def parseAmount (text : List Char) (decimals : ℕ := 7) : Except String ℤ :=
  match groups text with
  | none => .error ("Not an amount: \"" ++ String.ofList text ++ "\"")
  | some (whole, group) =>
      let frac := group.getD []
      if decimals < frac.length then
        .error ("At most " ++ toString decimals ++ " decimal places")
      else
        let padded := padEnd decimals frac
        .ok (value whole * 10 ^ decimals + value (if padded = [] then ['0'] else padded))

/-! ## What a text says -/

/-- Blanks, digits, maybe a point and more digits, and blanks. -/
structure Reads (text whole frac : List Char) : Prop where
  whole_ne : whole ≠ []
  whole_digits : Digits whole
  frac_digits : Digits frac
  shape : ∃ before after, (∀ c ∈ before, isSpace c = true) ∧ (∀ c ∈ after, isSpace c = true) ∧
    ((text = before ++ (whole ++ after) ∧ frac = []) ∨
      text = before ++ (whole ++ '.' :: (frac ++ after)))

/-- The number with these digits before and behind the point. -/
def decimalValue (whole frac : List Char) : ℚ := value whole + value frac / 10 ^ frac.length

/-- A number as it is written: no blanks, no bare point, no zeros that say nothing. -/
def Canonical (text : List Char) : Prop :=
  ∃ whole frac, text = whole ++ fraction frac ∧ whole ≠ [] ∧ Digits whole ∧ Digits frac ∧
    (whole.head? = some '0' → whole = ['0']) ∧ frac.getLast? ≠ some '0'

variable {text whole frac rest : List Char} {group : Option (List Char)} {decimals : ℕ} {amount : ℤ}

/-! ## Groups -/

section Groups

theorem isDigit_of_space {c : Char} (hspace : isSpace c = true) : c.isDigit = false := by
  rw [← Bool.not_eq_true]
  intro hdigit
  have hbounds := digit_bounds hdigit
  change 48 ≤ c.toNat ∧ c.toNat ≤ 57 at hbounds
  simp only [isSpace, Bool.or_eq_true, Bool.and_eq_true, decide_eq_true_eq, List.mem_cons,
    List.not_mem_nil, or_false] at hspace
  omega

/-- Where a stretch of matching characters ends. -/
theorem span_append {p : Char → Bool} {first : List Char} (hfirst : ∀ c ∈ first, p c = true)
    (hrest : ∀ c ∈ rest.head?, p c = false) :
    (first ++ rest).takeWhile p = first ∧ (first ++ rest).dropWhile p = rest := by
  rw [List.takeWhile_append_of_pos hfirst, List.dropWhile_append_of_pos hfirst]
  cases rest with
  | nil => exact ⟨List.append_nil _, rfl⟩
  | cons c rest =>
      have hstop := hrest c rfl
      rw [List.takeWhile_cons_of_neg (by simp [hstop]),
        List.dropWhile_cons_of_neg (by simp [hstop])]
      exact ⟨List.append_nil _, rfl⟩

theorem head?_digit (hdigits : Digits whole) (hne : whole ≠ []) (rest : List Char) :
    ∀ c ∈ (whole ++ rest).head?, isSpace c = false := by
  intro c hc
  cases whole with
  | nil => exact absurd rfl hne
  | cons d whole =>
      obtain rfl := Option.some.inj hc
      rw [← Bool.not_eq_true]
      intro hspace
      have hdigit := hdigits d List.mem_cons_self
      rw [isDigit_of_space hspace] at hdigit
      cases hdigit

theorem head?_space (hspaces : ∀ c ∈ rest, isSpace c = true) :
    ∀ c ∈ rest.head?, c.isDigit = false :=
  fun c hc => isDigit_of_space (hspaces c (List.mem_of_head? hc))

/-- A text of the right shape is cut into its parts. -/
theorem Reads.groups (h : Reads text whole frac) :
    ∃ group, groups text = some (whole, group) ∧ group.getD [] = frac := by
  obtain ⟨before, after, hbefore, hafter, hshape⟩ := h.shape
  have hspaces : after.all isSpace = true := List.all_eq_true.mpr hafter
  rcases hshape with ⟨rfl, rfl⟩ | rfl
  · have hblank := span_append hbefore (head?_digit h.whole_digits h.whole_ne after)
    have hwhole := span_append h.whole_digits (head?_space hafter)
    refine ⟨none, ?_, rfl⟩
    simp only [Sdk.groups, hblank.2, hwhole.1, hwhole.2, if_neg h.whole_ne]
    split
    next rest =>
      -- The blanks behind the digits do not begin with a point.
      have hpoint := hafter '.' List.mem_cons_self
      cases hpoint
    next => rw [if_pos hspaces]
  · have hblank := span_append hbefore
      (head?_digit h.whole_digits h.whole_ne ('.' :: (frac ++ after)))
    have hwhole : _ ∧ (whole ++ '.' :: (frac ++ after)).dropWhile Char.isDigit =
        '.' :: (frac ++ after) :=
      span_append h.whole_digits (by rintro c ⟨⟩; rfl)
    have hfrac := span_append h.frac_digits (head?_space hafter)
    refine ⟨some frac, ?_, rfl⟩
    simp only [Sdk.groups, hblank.2, hwhole.1, hwhole.2, hfrac.1, hfrac.2, if_neg h.whole_ne,
      if_pos hspaces]

theorem digits_takeWhile (text : List Char) : Digits (text.takeWhile Char.isDigit) :=
  fun _ hc => List.mem_takeWhile_imp hc

/-- Whatever is cut into parts has the right shape. -/
theorem reads_of_groups (h : groups text = some (whole, group)) :
    Reads text whole (group.getD []) := by
  have hblank : text.takeWhile isSpace ++ text.dropWhile isSpace = text :=
    List.takeWhile_append_dropWhile
  have hspaces : ∀ c ∈ text.takeWhile isSpace, isSpace c = true :=
    fun c hc => List.mem_takeWhile_imp hc
  have hdigits : (text.dropWhile isSpace).takeWhile Char.isDigit ++
      (text.dropWhile isSpace).dropWhile Char.isDigit = text.dropWhile isSpace :=
    List.takeWhile_append_dropWhile
  simp only [groups] at h
  split at h
  · cases h
  next hne =>
    split at h
    next rest hrest =>
      rw [Option.ite_none_right_eq_some] at h
      obtain ⟨hafter, hparts⟩ := h
      obtain ⟨rfl, rfl⟩ := Prod.mk.inj (Option.some.inj hparts)
      refine ⟨hne, digits_takeWhile _, digits_takeWhile _, _, _, hspaces,
        List.all_eq_true.mp hafter, .inr ?_⟩
      rw [Option.getD_some, List.takeWhile_append_dropWhile, ← hrest, hdigits, hblank]
    next =>
      rw [Option.ite_none_right_eq_some] at h
      obtain ⟨hafter, hparts⟩ := h
      obtain ⟨rfl, rfl⟩ := Prod.mk.inj (Option.some.inj hparts)
      refine ⟨hne, digits_takeWhile _, fun c hc => absurd hc List.not_mem_nil, _, _, hspaces,
        List.all_eq_true.mp hafter, .inl ⟨?_, rfl⟩⟩
      rw [hdigits, hblank]

end Groups

/-! ## Reading -/

theorem value_padded (decimals : ℕ) (frac : List Char) :
    value (if padEnd decimals frac = [] then ['0'] else padEnd decimals frac) =
      value (padEnd decimals frac) := by
  split
  next hempty =>
    rw [hempty]
    rfl
  next => rfl

/-- What a text says in base units. -/
theorem Reads.parseAmount (h : Reads text whole frac) (hfits : frac.length ≤ decimals) :
    parseAmount text decimals =
      .ok (value whole * 10 ^ decimals + value (padEnd decimals frac)) := by
  obtain ⟨group, hgroups, rfl⟩ := h.groups
  simp only [Sdk.parseAmount, hgroups, if_neg (Nat.not_lt.mpr hfits), value_padded]

theorem parseAmount_eq_ok (h : parseAmount text decimals = .ok amount) :
    ∃ whole frac, Reads text whole frac ∧ frac.length ≤ decimals := by
  cases hgroups : groups text with
  | none =>
      simp only [parseAmount, hgroups] at h
      cases h
  | some parts =>
      refine ⟨parts.1, parts.2.getD [], reads_of_groups hgroups, ?_⟩
      rw [← Nat.not_lt]
      intro hlong
      simp only [parseAmount, hgroups, if_pos hlong] at h
      cases h

/-- The parts of a text that is read. -/
theorem Reads.parsed (h : Reads text whole frac)
    (hok : Sdk.parseAmount text decimals = .ok amount) : frac.length ≤ decimals ∧ amount =
      value whole * 10 ^ decimals + value (padEnd decimals frac) := by
  obtain ⟨whole', frac', hreads, hfits⟩ := parseAmount_eq_ok hok
  obtain ⟨group, hgroups, rfl⟩ := h.groups
  obtain ⟨group', hgroups', rfl⟩ := hreads.groups
  rw [hgroups] at hgroups'
  obtain ⟨rfl, rfl⟩ := Prod.mk.inj (Option.some.inj hgroups')
  rw [h.parseAmount hfits] at hok
  exact ⟨hfits, (Except.ok.inj hok).symm⟩

/-- The amount is the number on the text, in base units. -/
theorem decimalValue_mul (hfits : frac.length ≤ decimals) :
    decimalValue whole frac * 10 ^ decimals =
      ((value whole * 10 ^ decimals + value (padEnd decimals frac) : ℤ) : ℚ) := by
  have hsplit : (10 : ℚ) ^ decimals = 10 ^ (decimals - frac.length) * 10 ^ frac.length := by
    rw [← pow_add, Nat.sub_add_cancel hfits]
  rw [decimalValue, value_padEnd, add_mul]
  push_cast
  rw [hsplit]
  field_simp

/-! ## Writing -/

/-- Canonical parts are read back as they are. -/
theorem reads_canonical (hne : whole ≠ []) (hwhole : Digits whole) (hfrac : Digits frac) :
    Reads (whole ++ fraction frac) whole frac := by
  refine ⟨hne, hwhole, hfrac, [], [], fun c hc => absurd hc List.not_mem_nil,
    fun c hc => absurd hc List.not_mem_nil, ?_⟩
  unfold fraction
  split
  next hempty => exact .inl ⟨rfl, hempty⟩
  next => exact .inr (by simp)

/-- The digits behind the point that are written for the rest below one whole. -/
def fracDigits (decimals rest : ℕ) : List Char :=
  stripZeros (padStart decimals (Nat.toDigits 10 rest))

theorem formatAmount_of_nonneg (hnonneg : 0 ≤ amount) (decimals : ℕ) :
    formatAmount amount decimals =
    Nat.toDigits 10 (amount.natAbs / 10 ^ decimals) ++
      fraction (fracDigits decimals (amount.natAbs % 10 ^ decimals)) := by
  simp only [formatAmount, if_neg (Int.not_lt.mpr hnonneg), List.nil_append]
  rfl

theorem digits_fracDigits (decimals rest : ℕ) : Digits (fracDigits decimals rest) :=
  ((digits_toDigits rest).padStart decimals).stripZeros

theorem fracDigits_zero_decimals : fracDigits 0 0 = [] := by
  decide

/-- Written behind the point and filled up again, the rest is as before. -/
theorem fracDigits_spec {rest : ℕ} (hrest : rest < 10 ^ decimals) :
    (fracDigits decimals rest).length ≤ decimals ∧
      value (padEnd decimals (fracDigits decimals rest)) = rest := by
  rcases Nat.eq_zero_or_pos decimals with rfl | hpos
  · obtain rfl : rest = 0 := Nat.lt_one_iff.mp hrest
    rw [fracDigits_zero_decimals]
    exact ⟨Nat.zero_le _, rfl⟩
  · have hlength : (padStart decimals (Nat.toDigits 10 rest)).length = decimals :=
      length_padStart ((Nat.length_toDigits_le_iff (by decide) hpos).mpr hrest)
    constructor
    · exact (length_stripZeros_le _).trans_eq hlength
    · rw [fracDigits, padEnd_stripZeros hlength, value_padStart, value_toDigits]

theorem formatAmount_canonical (hnonneg : 0 ≤ amount) (decimals : ℕ) :
    Canonical (formatAmount amount decimals) := by
  refine ⟨_, _, formatAmount_of_nonneg hnonneg decimals, Nat.toDigits_ne_nil, digits_toDigits _,
    digits_fracDigits _ _, toDigits_noLeadingZero _, ?_⟩
  exact stripZeros_noTrailingZero _

theorem formatAmount_reads (hnonneg : 0 ≤ amount) (decimals : ℕ) :
    Reads (formatAmount amount decimals)
    (Nat.toDigits 10 (amount.natAbs / 10 ^ decimals))
    (fracDigits decimals (amount.natAbs % 10 ^ decimals)) := by
  rw [formatAmount_of_nonneg hnonneg]
  exact reads_canonical Nat.toDigits_ne_nil (digits_toDigits _) (digits_fracDigits _ _)

/-- Reading what was written gives the amount back. -/
theorem parse_format (hnonneg : 0 ≤ amount) (decimals : ℕ) :
    parseAmount (formatAmount amount decimals) decimals = .ok amount := by
  have hrest : amount.natAbs % 10 ^ decimals < 10 ^ decimals :=
    Nat.mod_lt _ (Nat.pow_pos (by decide))
  obtain ⟨hfits, hfrac⟩ := fracDigits_spec hrest
  rw [(formatAmount_reads hnonneg decimals).parseAmount hfits, hfrac, value_toDigits]
  congr 1
  calc ((amount.natAbs / 10 ^ decimals : ℕ) : ℤ) * 10 ^ decimals + (amount.natAbs % 10 ^
      decimals : ℕ)
      = ((amount.natAbs / 10 ^ decimals * 10 ^ decimals + amount.natAbs % 10 ^ decimals : ℕ) :
          ℤ) := by
        rw [Nat.cast_add, Nat.cast_mul, Nat.cast_pow]
        rfl
    _ = amount.natAbs := by rw [Nat.div_add_mod']
    _ = amount := Int.natAbs_of_nonneg hnonneg

/-- Writing what was read from a canonical text gives the text back. -/
theorem format_parse (hcanonical : Canonical text) (hok : parseAmount text decimals = .ok amount) :
    formatAmount amount decimals = text := by
  obtain ⟨whole, frac, rfl, hne, hwhole, hfrac, hfirst, hlast⟩ := hcanonical
  obtain ⟨hfits, rfl⟩ := (reads_canonical hne hwhole hfrac).parsed hok
  have hpad : (padEnd decimals frac).length = decimals := length_padEnd hfits
  have hdigits : Digits (padEnd decimals frac) := hfrac.append (digits_zeros _)
  have hlt : value (padEnd decimals frac) < 10 ^ decimals :=
    (value_lt hdigits).trans_eq (congrArg _ hpad)
  have hcast : (value whole * 10 ^ decimals + value (padEnd decimals frac) : ℤ) =
      ((value whole * 10 ^ decimals + value (padEnd decimals frac) : ℕ) : ℤ) := by
    push_cast
    rfl
  have hstrip : fracDigits decimals (value (padEnd decimals frac)) = frac := by
    rcases Nat.eq_zero_or_pos decimals with rfl | hpos
    · obtain rfl : frac = [] := List.eq_nil_of_length_eq_zero (Nat.le_zero.mp hfits)
      exact fracDigits_zero_decimals
    · have hnonempty : padEnd decimals frac ≠ [] := List.length_pos_iff.mp (hpos.trans_eq hpad.symm)
      have hfull := padStart_value hdigits hnonempty
      rw [hpad] at hfull
      rw [fracDigits, hfull, stripZeros_padEnd, stripZeros_eq_self hlast]
  rw [hcast, formatAmount_of_nonneg (Int.natCast_nonneg _), Int.natAbs_natCast,
    Nat.mul_comm, Nat.mul_add_div (Nat.pow_pos (by decide)), Nat.div_eq_of_lt hlt, Nat.add_zero,
    Nat.mul_add_mod, Nat.mod_eq_of_lt hlt, hstrip, toDigits_value hwhole hne hfirst]

/-- Two texts that are read as one amount show one number. -/
theorem decimalValue_eq {text' whole' frac' : List Char} (h : Reads text whole frac)
    (h' : Reads text' whole' frac') (hok : parseAmount text decimals = .ok amount)
    (hok' : parseAmount text' decimals = .ok amount) :
    decimalValue whole' frac' = decimalValue whole frac := by
  obtain ⟨hfits, hamount⟩ := h.parsed hok
  obtain ⟨hfits', hamount'⟩ := h'.parsed hok'
  have hbase : (10 : ℚ) ^ decimals ≠ 0 := pow_ne_zero _ (by norm_num)
  apply mul_right_cancel₀ hbase
  rw [decimalValue_mul hfits, decimalValue_mul hfits', ← hamount, ← hamount']

/-- An amount is read back from its text; a text that is read says the amount, whose own text
is canonical and the only canonical one; and only texts with at most `decimals` digits behind
the point are read. -/
theorem amounts_round_trip :
    (∀ (amount : ℤ) (decimals : ℕ), 0 ≤ amount →
      parseAmount (formatAmount amount decimals) decimals = .ok amount) ∧
    (∀ (text : List Char) (decimals : ℕ) (amount : ℤ), parseAmount text decimals = .ok amount →
      (∀ whole frac, Reads text whole frac →
        (amount : ℚ) = decimalValue whole frac * 10 ^ decimals) ∧
      Canonical (formatAmount amount decimals) ∧
      (∀ whole frac whole' frac', Reads text whole frac →
        Reads (formatAmount amount decimals) whole' frac' →
        decimalValue whole' frac' = decimalValue whole frac) ∧
      ∀ other, Canonical other → parseAmount other decimals = .ok amount →
        other = formatAmount amount decimals) ∧
    (∀ (text : List Char) (decimals : ℕ), (∃ amount, parseAmount text decimals = .ok amount) ↔
      ∃ whole frac, Reads text whole frac ∧ frac.length ≤ decimals) := by
  refine ⟨?_, ?_, ?_⟩
  · intro amount decimals hnonneg
    exact parse_format hnonneg decimals
  · intro text decimals amount hok
    obtain ⟨whole, frac, hreads, -⟩ := parseAmount_eq_ok hok
    have hnonneg : 0 ≤ amount := by
      rw [(hreads.parsed hok).2]
      positivity
    refine ⟨?_, formatAmount_canonical hnonneg decimals, ?_, ?_⟩
    · intro whole frac hreads
      obtain ⟨hfits, hamount⟩ := hreads.parsed hok
      rw [decimalValue_mul hfits, hamount]
    · intro whole frac whole' frac' hreads hreads'
      exact decimalValue_eq hreads hreads' hok (parse_format hnonneg decimals)
    · intro other hcanonical hother
      exact (format_parse hcanonical hother).symm
  · intro text decimals
    constructor
    · rintro ⟨amount, hok⟩
      exact parseAmount_eq_ok hok
    · rintro ⟨whole, frac, hreads, hfits⟩
      exact ⟨_, hreads.parseAmount hfits⟩

/-- A text with blanks and a zero too many, and the text of its amount. -/
theorem amounts_round_trip_oneAndHalf :
    parseAmount [' ', '1', '.', '5', '0'] = .ok 15000000 ∧ formatAmount 15000000 = ['1', '.', '5'] ∧
    parseAmount (formatAmount 15000000) = .ok 15000000 ∧ Canonical (formatAmount 15000000) := by
  have hok : parseAmount [' ', '1', '.', '5', '0'] = .ok 15000000 := by decide +kernel
  refine ⟨hok, by decide +kernel, ?_, ?_⟩
  · exact amounts_round_trip.1 15000000 7 (by decide)
  · exact (amounts_round_trip.2.1 _ 7 _ hok).2.1

end SoroCron.Sdk
