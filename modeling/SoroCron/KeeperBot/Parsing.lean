import SoroCron.Foundation.Scanning
import SoroCron.Foundation.Text
import SoroCron.Registry.Schedule
import SoroCron.Sdk.Durations

/-! # What operators type

Durations and calendar times on the command line.
-/

namespace SoroCron.KeeperBot

open Decimal
open Sdk (isSpace)

/-! ## Durations -/

/-- Seconds in a unit. -/
def unitSeconds : Char → Option ℕ
  | 's' => some 1
  | 'm' => some 60
  | 'h' => some 3600
  | 'd' => some 86400
  | 'w' => some 604800
  | _ => none

def unitSize (unit : Char) : ℕ := (unitSeconds unit).getD 0

/-- One match of `(\d+)\s*([smhdw])`. -/
structure DurationPart where
  digits : List Char
  blanks : List Char
  unit : Char

namespace DurationPart

def text (part : DurationPart) : List Char := part.digits ++ part.blanks ++ [part.unit]

def seconds (part : DurationPart) : ℕ := value part.digits * unitSize part.unit

end DurationPart

/-- The match that begins where the text does, and its length. -/
def durationPart (text : List Char) : Option (DurationPart × ℕ) :=
  let digits := text.takeWhile Char.isDigit
  let behind := text.dropWhile Char.isDigit
  let blanks := behind.takeWhile isSpace
  match behind.dropWhile isSpace with
  | unit :: _ =>
      if digits ≠ [] ∧ (unitSeconds unit).isSome = true then
        let part : DurationPart := { digits, blanks, unit }
        some (part, part.text.length)
      else
        none
  | [] => none

/-- The text without blanks at both ends. -/
def trim (text : List Char) : List Char := (text.dropWhile isSpace).rdropWhile isSpace

/-- One letter in lower case. Beyond ASCII only the two that become ASCII letters are changed. -/
def lowerChar (c : Char) : List Char :=
  if c = 'İ' then ['i', Char.ofNat 775] else if c.toNat = 8490 then ['k'] else [c.toLower]

def lower (text : List Char) : List Char := text.flatMap lowerChar

/-- `90`, `90s`, `15m`, `1h30m` or `1d` in seconds. -/
def parseDuration (text : List Char) : Except String ℕ :=
  let input := lower (trim text)
  if input ≠ [] ∧ input.all Char.isDigit = true then
    .ok (value input)
  else
    let parts := Scanning.matchAll durationPart input
    if parts = [] ∨ (parts.map DurationPart.text).flatten ≠ input.filter (fun c => !isSpace c) then
      .error ("Not a duration: \"" ++ String.ofList text ++ "\" (try 30s, 15m, 1h30m, 1d)")
    else
      .ok (parts.map DurationPart.seconds).sum

/-- Blanks, and numbers that are each followed at once by their unit. -/
inductive Spelled : List Char → List (List Char × Char) → Prop where
  | blank {text : List Char} (hblank : ∀ c ∈ text, isSpace c = true) : Spelled text []
  | part {blanks digits rest : List Char} {unit : Char} {parts : List (List Char × Char)}
      (hblank : ∀ c ∈ blanks, isSpace c = true) (hdigits : Digits digits) (hne : digits ≠ [])
      (hunit : (unitSeconds unit).isSome = true) (hrest : Spelled rest parts) :
      Spelled (blanks ++ (digits ++ unit :: rest)) ((digits, unit) :: parts)

/-- The seconds that numbers of units stand for. -/
def secondsOf (parts : List (List Char × Char)) : ℕ :=
  (parts.map fun part => value part.1 * unitSize part.2).sum

variable {text rest blanks digits : List Char} {unit c : Char} {parts : List (List Char × Char)}
  {found : DurationPart} {length n : ℕ}

theorem not_digit_of_unit (hunit : (unitSeconds unit).isSome = true) : unit.isDigit = false := by
  unfold unitSeconds at hunit
  split at hunit
  all_goals first | rfl | cases hunit

theorem not_space_of_unit (hunit : (unitSeconds unit).isSome = true) : isSpace unit = false := by
  unfold unitSeconds at hunit
  split at hunit
  all_goals first | decide | cases hunit

theorem not_space_of_digit (hdigit : c.isDigit = true) : isSpace c = false := by
  rw [← Bool.not_eq_true]
  intro hspace
  rw [Sdk.isDigit_of_space hspace] at hdigit
  cases hdigit

/-! ### One part -/

/-- What a match consists of. -/
theorem eq_of_durationPart (h : durationPart text = some (found, length)) :
    Digits found.digits ∧ found.digits ≠ [] ∧ (∀ c ∈ found.blanks, isSpace c = true) ∧
      (unitSeconds found.unit).isSome = true ∧ found.text <+: text ∧
        length = found.text.length := by
  simp only [durationPart] at h
  split at h
  next unit rest hrest =>
    rw [Option.ite_none_right_eq_some] at h
    obtain ⟨⟨hne, hunit⟩, hsame⟩ := h
    obtain ⟨rfl, rfl⟩ := Prod.mk.inj (Option.some.inj hsame)
    refine ⟨Sdk.digits_takeWhile _, hne, fun c hc => List.mem_takeWhile_imp hc, hunit,
      ⟨rest, ?_⟩, rfl⟩
    have hbehind :=
      List.takeWhile_append_dropWhile (p := isSpace) (l := text.dropWhile Char.isDigit)
    rw [hrest] at hbehind
    simp only [DurationPart.text, List.append_assoc, List.singleton_append]
    rw [hbehind, List.takeWhile_append_dropWhile]
  next => cases h

/-- No part begins with a blank. -/
theorem durationPart_blank (hspace : isSpace c = true) (rest : List Char) :
    durationPart (c :: rest) = none := by
  have hdigit := Sdk.isDigit_of_space hspace
  unfold durationPart
  simp only [List.takeWhile_cons, hdigit, Bool.false_eq_true, if_false, ne_eq, not_true_eq_false,
    false_and]
  split <;> rfl

theorem durationPart_spelled (hdigits : Digits digits) (hne : digits ≠ [])
    (hunit : (unitSeconds unit).isSome = true) (rest : List Char) :
    durationPart (digits ++ unit :: rest) = some (⟨digits, [], unit⟩, digits.length + 1) := by
  have hdigit := not_digit_of_unit hunit
  have hspace := not_space_of_unit hunit
  have htake : (digits ++ unit :: rest).takeWhile Char.isDigit = digits := by
    rw [List.takeWhile_append_of_pos hdigits, List.takeWhile_cons_of_neg (by simp [hdigit]),
      List.append_nil]
  have hdrop : (digits ++ unit :: rest).dropWhile Char.isDigit = unit :: rest := by
    rw [List.dropWhile_append_of_pos hdigits, List.dropWhile_cons_of_neg (by simp [hdigit])]
  unfold durationPart
  simp only [htake, hdrop, List.takeWhile_cons, List.dropWhile_cons, hspace, Bool.false_eq_true,
    if_false, hne, ne_eq, not_false_eq_true, hunit, and_self, if_true]
  simp [DurationPart.text]

theorem DurationPart.text_pos (part : DurationPart) : 0 < part.text.length := by
  simp [DurationPart.text]

/-! ### All parts -/

/-- The text without blanks. -/
def squeeze (text : List Char) : List Char := text.filter fun c => !isSpace c

theorem squeeze_append (first second : List Char) :
    squeeze (first ++ second) = squeeze first ++ squeeze second :=
  List.filter_append ..

theorem squeeze_blank (hblank : ∀ c ∈ text, isSpace c = true) : squeeze text = [] := by
  rw [squeeze, List.filter_eq_nil_iff]
  intro c hc
  rw [hblank c hc]
  decide

theorem squeeze_digits (hdigits : Digits digits) : squeeze digits = digits := by
  rw [squeeze, List.filter_eq_self]
  intro c hc
  rw [not_space_of_digit (hdigits c hc)]
  rfl

theorem squeeze_unit (hunit : (unitSeconds unit).isSome = true) (rest : List Char) :
    squeeze (unit :: rest) = unit :: squeeze rest := by
  rw [squeeze, List.filter_cons_of_pos]
  · rfl
  · rw [not_space_of_unit hunit]
    rfl

/-- What the search finds, as it stands in the text. -/
def joined (parts : List DurationPart) : List Char := (parts.map DurationPart.text).flatten

/-- The search finds every number and unit of a well-spelled text, and nothing else in it. -/
theorem Spelled.matchAll (h : Spelled text parts) :
    Scanning.matchAll durationPart text = parts.map (fun part => ⟨part.1, [], part.2⟩) ∧
      joined (Scanning.matchAll durationPart text) = squeeze text := by
  induction h with
  | blank hblank =>
      have hnone := Scanning.matchAll_append
        (fun c hc rest => durationPart_blank (hblank c hc) rest) []
      rw [List.append_nil] at hnone
      rw [hnone, squeeze_blank hblank]
      exact ⟨rfl, rfl⟩
  | @part blanks digits rest unit parts hblank hdigits hne hunit hrest ih =>
      have hhit := durationPart_spelled hdigits hne hunit rest
      obtain ⟨first, others, hfirst⟩ := List.exists_cons_of_ne_nil hne
      have hmatch : Scanning.matchAll durationPart (digits ++ unit :: rest) =
          ⟨digits, [], unit⟩ :: Scanning.matchAll durationPart rest := by
        have hdrop : (digits ++ unit :: rest).drop (digits.length + 1) = rest := by
          rw [← List.drop_drop, List.drop_left]
          rfl
        rw [hfirst, List.cons_append] at hhit hdrop ⊢
        rw [List.drop_succ_cons] at hdrop
        rw [Scanning.matchAll_hit hhit, hdrop]
      rw [Scanning.matchAll_append (fun c hc rest => durationPart_blank (hblank c hc) rest), hmatch,
        squeeze_append,
        squeeze_blank hblank, squeeze_append, squeeze_digits hdigits, squeeze_unit hunit, ih.1,
          List.nil_append]
      refine ⟨rfl, ?_⟩
      rw [← ih.2, ih.1]
      simp [joined, DurationPart.text]

/-- A blank in front changes nothing. -/
theorem Spelled.space (hspace : isSpace c = true) (h : Spelled text parts) :
    Spelled (c :: text) parts := by
  cases h with
  | blank hblank =>
      apply Spelled.blank
      intro d hd
      rcases List.mem_cons.mp hd with rfl | hrest
      · exact hspace
      · exact hblank d hrest
  | part hblank hdigits hne hunit hrest =>
      rw [← List.cons_append]
      refine Spelled.part ?_ hdigits hne hunit hrest
      intro d hd
      rcases List.mem_cons.mp hd with rfl | hin
      · exact hspace
      · exact hblank d hin

/-- The search leaves out signs of the text and adds none. -/
theorem joined_sublist (text : List Char) :
    (joined (Scanning.matchAll durationPart text)).Sublist text := by
  apply Scanning.matchAll_sublist DurationPart.text_pos
  intro whole found length hhere
  obtain ⟨-, -, -, -, hbegins, hlength⟩ := eq_of_durationPart hhere
  exact ⟨hbegins, hlength⟩

/-- A text that the parts fill, blanks left aside, is well spelled. -/
theorem spelled_of_joined (text : List Char)
    (hjoined : joined (Scanning.matchAll durationPart text) = squeeze text) :
    Spelled text ((Scanning.matchAll durationPart text).map fun part =>
      (part.digits, part.unit)) := by
  apply Scanning.matchAll_induction durationPart
    (motive := fun text found => joined found = squeeze text →
      Spelled text (found.map fun part => (part.digits, part.unit)))
  case hsize =>
    intro text found length hhere
    obtain ⟨-, -, -, -, hbegins, rfl⟩ := eq_of_durationPart hhere
    refine ⟨?_, found.text_pos⟩
    rintro rfl
    have hempty := List.prefix_nil.mp hbegins
    exact absurd found.text_pos (by simp [hempty])
  case hnil =>
    intro _
    exact Spelled.blank fun c hc => absurd hc List.not_mem_nil
  case hmiss =>
    intro c rest _ ih hfills
    by_cases hspace : isSpace c = true
    · have hskip : squeeze (c :: rest) = squeeze rest := by simp [squeeze, hspace]
      exact (ih (hfills.trans hskip)).space hspace
    · -- The sign that no match covers is missing.
      have hkeep : squeeze (c :: rest) = c :: squeeze rest := by simp [squeeze, hspace]
      have hfewer := ((joined_sublist rest).filter fun c => !isSpace c).length_le
      have hfull : squeeze (squeeze (c :: rest)) = squeeze (c :: rest) := by simp [squeeze]
      rw [← hfills] at hfull
      change (squeeze (joined (Scanning.matchAll durationPart rest))).length ≤
        (squeeze rest).length at hfewer
      rw [hfull, hfills, hkeep, List.length_cons] at hfewer
      omega
  case hhit =>
    intro text found length hhere ih hfills
    obtain ⟨hdigits, hne, hblank, hunit, ⟨rest, rfl⟩, rfl⟩ := eq_of_durationPart hhere
    rw [List.drop_left] at ih hfills ⊢
    rw [joined, List.map_cons, List.flatten_cons] at hfills
    have hparted : squeeze (found.text ++ rest) = found.digits ++ found.unit :: squeeze rest := by
      simp only [DurationPart.text, List.append_assoc, List.singleton_append]
      rw [squeeze_append, squeeze_append, squeeze_digits hdigits, squeeze_blank hblank,
        squeeze_unit hunit, List.nil_append]
    have hnone : found.blanks = [] := by
      rw [List.eq_nil_iff_forall_not_mem]
      intro c hc
      have hin : c ∈ squeeze (found.text ++ rest) := by
        rw [← hfills]
        simp [DurationPart.text, hc]
      have hkept := (List.mem_filter.mp hin).2
      rw [hblank c hc] at hkept
      cases hkept
    have htext : found.text = found.digits ++ [found.unit] := by
      rw [DurationPart.text, hnone, List.append_nil]
    rw [hparted, htext, List.append_assoc, List.append_cancel_left_eq] at hfills
    rw [htext, List.map_cons, List.append_assoc]
    have hnothing : ∀ c ∈ ([] : List Char), isSpace c = true :=
      fun c hc => absurd hc List.not_mem_nil
    exact Spelled.part hnothing hdigits hne hunit (ih (List.cons.inj hfills).2)
  case a => exact hjoined

/-! ### What is read -/

theorem secondsOf_matches (found : List DurationPart) :
    secondsOf (found.map fun part => (part.digits, part.unit)) =
      (found.map DurationPart.seconds).sum := by
  rw [secondsOf, List.map_map]
  rfl

/-- A unit stays as it is in a number. -/
theorem Spelled.not_number (h : Spelled text parts) (hne : parts ≠ []) :
    text.all Char.isDigit = false := by
  cases h with
  | blank hblank => exact absurd rfl hne
  | @part blanks digits rest unit parts hblank hdigits hsome hunit hrest =>
      rw [← Bool.not_eq_true, List.all_eq_true]
      intro hall
      have hdigit := hall unit (by simp)
      rw [not_digit_of_unit hunit] at hdigit
      cases hdigit

/-- A duration is a number of seconds, or numbers with their units between blanks, and nothing
else is read. -/
theorem parseDuration_eq_ok_iff (text : List Char) (n : ℕ) :
    parseDuration text = .ok n ↔
      (lower (trim text) ≠ [] ∧ Digits (lower (trim text)) ∧ n = value (lower (trim text))) ∨
        ∃ parts, parts ≠ [] ∧ Spelled (lower (trim text)) parts ∧ n = secondsOf parts := by
  unfold parseDuration
  constructor
  · intro h
    simp only at h
    split at h
    next hnumber =>
      cases h
      exact .inl ⟨hnumber.1, List.all_eq_true.mp hnumber.2, rfl⟩
    next =>
      split at h
      next => cases h
      next hfills =>
        cases h
        obtain ⟨hsome, hjoined⟩ := not_or.mp hfills
        refine .inr ⟨_, ?_, spelled_of_joined _ (not_not.mp hjoined), (secondsOf_matches _).symm⟩
        exact fun hnil => hsome (List.map_eq_nil_iff.mp hnil)
  · rintro (⟨hne, hdigits, rfl⟩ | ⟨parts, hne, hspelled, rfl⟩)
    · simp only
      rw [if_pos ⟨hne, List.all_eq_true.mpr hdigits⟩]
    · obtain ⟨hparts, hjoined⟩ := hspelled.matchAll
      have hsome : Scanning.matchAll durationPart (lower (trim text)) ≠ [] := by
        rw [hparts]
        exact fun hnil => hne (List.map_eq_nil_iff.mp hnil)
      simp only
      rw [if_neg, if_neg]
      · rw [← secondsOf_matches, hparts, List.map_map]
        exact congrArg (fun parts => Except.ok (secondsOf parts)) (List.map_id' parts)
      · exact not_or.mpr ⟨hsome, not_not.mpr hjoined⟩
      · rintro ⟨-, hall⟩
        rw [hspelled.not_number hne] at hall
        cases hall

/-! ### What was written is read -/

theorem trim_eq_self (hfirst : ∀ c ∈ text.head?, isSpace c = false)
    (hlast : ∀ c ∈ text.getLast?, isSpace c = false) : trim text = text := by
  have hkept : text.dropWhile isSpace = text := by
    cases text with
    | nil => rfl
    | cons c rest => rw [List.dropWhile_cons_of_neg (by simp [hfirst c rfl])]
  rw [trim, hkept, List.rdropWhile_eq_self_iff]
  intro hne hspace
  rw [hlast _ (List.getLast?_eq_some_getLast hne)] at hspace
  cases hspace

/-- Signs that are no capital letters stay. -/
theorem lowerChar_eq_self (hdotted : c.toNat ≠ 304) (hkelvin : c.toNat ≠ 8490)
    (hcapital : c.toNat < 65 ∨ 90 < c.toNat) : lowerChar c = [c] := by
  have hother : c ≠ 'İ' := by
    rintro rfl
    exact hdotted rfl
  have hkept : c.toLower = c := by
    refine dif_neg ?_
    rintro ⟨hfrom, hto⟩
    rw [ge_iff_le, UInt32.le_iff_toNat_le] at hfrom
    rw [UInt32.le_iff_toNat_le] at hto
    change 65 ≤ c.toNat at hfrom
    change c.toNat ≤ 90 at hto
    omega
  rw [lowerChar, if_neg hother, if_neg hkelvin, hkept]

theorem lowerChar_digit (hdigit : c.isDigit = true) : lowerChar c = [c] := by
  have hbounds := digit_bounds hdigit
  change 48 ≤ c.toNat ∧ c.toNat ≤ 57 at hbounds
  apply lowerChar_eq_self
  all_goals omega

theorem lowerChar_space (hspace : isSpace c = true) : lowerChar c = [c] := by
  simp only [isSpace, Bool.or_eq_true, Bool.and_eq_true, decide_eq_true_eq, List.mem_cons,
    List.not_mem_nil, or_false] at hspace
  apply lowerChar_eq_self
  all_goals omega

theorem lowerChar_unit (hunit : (unitSeconds unit).isSome = true) : lowerChar unit = [unit] := by
  unfold unitSeconds at hunit
  split at hunit
  all_goals first | decide | cases hunit

theorem lower_eq_self (hlower : ∀ c ∈ text, lowerChar c = [c]) : lower text = text := by
  induction text with
  | nil => rfl
  | cons c rest ih =>
      rw [lower, List.flatMap_cons, hlower c List.mem_cons_self]
      exact congrArg (c :: ·) (ih fun d hd => hlower d (List.mem_cons_of_mem _ hd))

/-- Well-spelled texts are in lower case. -/
theorem Spelled.lower (h : Spelled text parts) : lower text = text := by
  apply lower_eq_self
  induction h with
  | blank hblank => exact fun c hc => lowerChar_space (hblank c hc)
  | part hblank hdigits hne hunit hrest ih =>
      intro c hc
      rcases List.mem_append.mp hc with hin | hin
      · exact lowerChar_space (hblank c hin)
      · rcases List.mem_append.mp hin with hdigit | hbehind
        · exact lowerChar_digit (hdigits c hdigit)
        · rcases List.mem_cons.mp hbehind with rfl | hlater
          · exact lowerChar_unit hunit
          · exact ih c hlater

/-- The parts of a written duration, as the digits and units that they are read as. -/
def spelledParts (parts : List (ℕ × Char)) : List (List Char × Char) :=
  parts.map fun part => (Nat.toDigits 10 part.1, part.2)

/-- Written parts are well spelled. -/
theorem spelled_intercalate {parts : List (ℕ × Char)}
    (hunits : ∀ part ∈ parts, (unitSeconds part.2).isSome = true) :
    Spelled ([' '].intercalate (parts.map Sdk.partText)) (spelledParts parts) := by
  induction parts with
  | nil => exact Spelled.blank fun c hc => absurd hc List.not_mem_nil
  | cons part parts ih =>
      have hunit := hunits part List.mem_cons_self
      have hrest := ih fun other hmem => hunits other (List.mem_cons_of_mem _ hmem)
      have hmore : Spelled ([' '].intercalate ((part :: parts).map Sdk.partText))
          (spelledParts (part :: parts)) ↔
          Spelled ([] ++ (Nat.toDigits 10 part.1 ++ part.2 :: (if parts = [] then [] else
            ' ' :: [' '].intercalate (parts.map Sdk.partText))))
              (spelledParts (part :: parts)) := by
        cases parts with
        | nil => simp [Sdk.partText]
        | cons next parts => simp [Sdk.partText]
      rw [hmore]
      refine Spelled.part (fun c hc => absurd hc List.not_mem_nil)
        (digits_toDigits _) Nat.toDigits_ne_nil hunit ?_
      split
      next hnone =>
        subst hnone
        exact hrest
      next => exact hrest.space (by decide)

/-- Written parts begin with a digit and end with a unit. -/
theorem trim_intercalate {parts : List (ℕ × Char)}
    (hunits : ∀ part ∈ parts, (unitSeconds part.2).isSome = true) :
    trim ([' '].intercalate (parts.map Sdk.partText)) =
      [' '].intercalate (parts.map Sdk.partText) := by
  apply trim_eq_self
  · intro c hc
    cases parts with
    | nil => cases hc
    | cons part parts =>
        apply not_space_of_digit
        apply digits_toDigits part.1 c
        obtain ⟨first, digits, hdigits⟩ :=
          List.exists_cons_of_ne_nil (Nat.toDigits_ne_nil (b := 10) (n := part.1))
        rw [hdigits]
        have hfirst : c = first := by
          cases parts with
          | nil => simpa [Sdk.partText, hdigits, eq_comm] using hc
          | cons next parts => simpa [Sdk.partText, hdigits, eq_comm] using hc
        rw [hfirst]
        exact List.mem_cons_self
  · induction parts with
    | nil =>
        intro c hc
        cases hc
    | cons part parts ih =>
        intro c hc
        have hunit := hunits part List.mem_cons_self
        cases parts with
        | nil =>
            have hlast : c = part.2 := by simpa [Sdk.partText, eq_comm] using hc
            rw [hlast]
            exact not_space_of_unit hunit
        | cons next parts =>
            apply ih (fun other hmem => hunits other (List.mem_cons_of_mem _ hmem)) c
            have hne : [' '].intercalate ((next :: parts).map Sdk.partText) ≠ [] := by
              cases parts with
              | nil => simp [Sdk.partText]
              | cons other parts => simp [Sdk.partText]
            rw [List.map_cons, List.map_cons, List.intercalate_cons_cons, ← List.map_cons,
              List.getLast?_append_of_ne_nil _ hne] at hc
            exact hc

/-- Written parts are read as the seconds they stand for. -/
theorem parseDuration_intercalate {parts : List (ℕ × Char)} (hsome : parts ≠ [])
    (hunits : ∀ part ∈ parts, (unitSeconds part.2).isSome = true) :
    parseDuration ([' '].intercalate (parts.map Sdk.partText)) =
      .ok (secondsOf (spelledParts parts)) := by
  have hspelled := spelled_intercalate hunits
  rw [parseDuration_eq_ok_iff, trim_intercalate hunits, hspelled.lower]
  exact .inr ⟨_, fun hnil => hsome (List.map_eq_nil_iff.mp hnil), hspelled, rfl⟩

theorem unitSeconds_writtenUnits :
    ∀ unit ∈ Sdk.writtenUnits, (unitSeconds unit.1).isSome = true ∧ unitSize unit.1 = unit.2 ∧
      0 < unit.2 := by
  decide

theorem secondsOf_spelledParts (parts : List (ℕ × Char)) :
    secondsOf (spelledParts parts) = Sdk.worth unitSize parts := by
  rw [secondsOf, spelledParts, List.map_map, Sdk.worth]
  refine congrArg List.sum (List.map_congr_left fun part _ => ?_)
  exact congrArg (· * _) (value_toDigits part.1)

theorem parseDuration_written (seconds : ℤ) :
    ∃ n : ℕ, parseDuration (Sdk.formatDuration seconds) = .ok n ∧ n ≤ seconds.toNat ∧
      (0 < seconds → 25 * (seconds.toNat - n) < n) ∧
      ((Sdk.durationParts Sdk.writtenUnits seconds.toNat).length ≤ 2 → n = seconds.toNat) ∧
      Sdk.formatDuration n = Sdk.formatDuration seconds := by
  by_cases hzero : seconds ≤ 0
  · have htext : Sdk.formatDuration seconds = ['0', 's'] := if_pos hzero
    refine ⟨0, ?_, Nat.zero_le _, fun hpos => absurd hpos (Int.not_lt.mpr hzero), fun _ => by omega,
      htext.symm⟩
    rw [htext]
    decide
  · obtain ⟨s, rfl⟩ := Int.eq_ofNat_of_zero_le (Int.le_of_lt (Int.not_le.mp hzero))
    have hpos : 0 < s := by omega
    have hsizes : ∀ unit ∈ Sdk.writtenUnits, unitSize unit.1 = unit.2 ∧ 0 < unit.2 :=
      fun unit hmem => (unitSeconds_writtenUnits unit hmem).2
    obtain ⟨hsome, hclose, hexact⟩ := Sdk.worth_two (fun unit hmem => (hsizes unit hmem).1) hpos
    have hunits : ∀ part ∈ (Sdk.durationParts Sdk.writtenUnits s).take 2,
        (unitSeconds part.2).isSome = true := by
      intro part hmem
      obtain ⟨unit, hunit, hsame⟩ :=
        List.mem_map.mp (Sdk.mem_durationParts (List.mem_of_mem_take hmem))
      rw [← hsame]
      exact (unitSeconds_writtenUnits unit hunit).1
    have hfirst : (Sdk.durationParts Sdk.writtenUnits s).take 2 ≠ [] := by
      intro hnil
      rcases List.take_eq_nil_iff.mp hnil with htwo | hnone
      · cases htwo
      · exact hsome hnone
    have hread := parseDuration_intercalate hfirst hunits
    rw [secondsOf_spelledParts] at hread
    refine ⟨_, ?_, Sdk.worth_take_le (fun unit hmem => (hsizes unit hmem).1) s 2, fun _ => hclose,
      hexact, ?_⟩
    · rw [Sdk.formatDuration, if_neg hzero]
      exact hread
    · have hmore :
          ¬((Sdk.worth unitSize ((Sdk.durationParts Sdk.writtenUnits s).take 2) : ℕ) : ℤ) ≤ 0 := by
        omega
      rw [Sdk.formatDuration, if_neg hmore, Sdk.formatDuration, if_neg hzero, Int.toNat_natCast,
        Sdk.durationParts_worth hsizes, List.take_take]
      rfl

/-- A duration as the SDK writes it is read as what it says: never more than was written, less by
under a twenty-fifth, exactly what was written where two parts say it all, and written again in
the same way. -/
theorem parseDuration_formatDuration {seconds : ℤ} (hsafe : seconds ≤ Sdk.maxSafeInteger) :
    ∃ n : ℕ, parseDuration (Sdk.formatDuration seconds) = .ok n ∧ n ≤ seconds.toNat ∧
      (n : ℤ) ≤ Sdk.maxSafeInteger ∧ (0 < seconds → 25 * (seconds.toNat - n) < n) ∧
      ((Sdk.durationParts Sdk.writtenUnits seconds.toNat).length ≤ 2 → n = seconds.toNat) ∧
      Sdk.formatDuration n = Sdk.formatDuration seconds := by
  obtain ⟨n, hread, hle, hclose, hexact, hagain⟩ := parseDuration_written seconds
  have hzero : (0 : ℤ) ≤ Sdk.maxSafeInteger := by decide
  exact ⟨n, hread, hle, by omega, hclose, hexact, hagain⟩

/-- A day, an hour, a minute and a second are written `1d 1h`. -/
theorem parseDuration_formatDuration_day : ∃ n :
    ℕ, parseDuration (Sdk.formatDuration 90061) = .ok n ∧
    n ≤ 90061 ∧ 25 * (90061 - n) < n ∧ Sdk.formatDuration n = ['1', 'd', ' ', '1', 'h'] := by
  have hsafe : (90061 : ℤ) ≤ Sdk.maxSafeInteger := by decide
  obtain ⟨n, hread, hle, -, hclose, -, hagain⟩ := parseDuration_formatDuration hsafe
  exact ⟨n, hread, hle, hclose (by decide), hagain.trans (by decide)⟩

/-! ## Times of day and of the week -/

/-- `12:00` or `9:30`. -/
def parseClock (text : List Char) : Except String (ℕ × ℕ) :=
  let clock := trim text
  let hours := clock.takeWhile Char.isDigit
  match clock.dropWhile Char.isDigit with
  | ':' :: minutes =>
      if (hours.length = 1 ∨ hours.length = 2) ∧ minutes.length = 2 ∧
          minutes.all Char.isDigit = true then
        if 23 < value hours ∨ 59 < value minutes then
          .error ("Not a time: \"" ++ String.ofList text ++ "\"")
        else
          .ok (value hours, value minutes)
      else
        .error ("Not a time: \"" ++ String.ofList text ++ "\" (use HH:MM, UTC)")
  | _ => .error ("Not a time: \"" ++ String.ofList text ++ "\" (use HH:MM, UTC)")

def weekdays : List (List Char) :=
  [['m', 'o', 'n'], ['t', 'u', 'e'], ['w', 'e', 'd'], ['t', 'h', 'u'], ['f', 'r', 'i'],
    ['s', 'a', 't'], ['s', 'u', 'n']]

/-- `--daily 12:00`. -/
def parseDaily (text : List Char) : Except String Schedule := do
  let (hour, minute) ← parseClock text
  return .daily hour minute

/-- `--weekly mon@09:30`. -/
def parseWeekly (text : List Char) : Except String Schedule := do
  let lowered := lower text
  let dayName := (Text.firstPiece ['@'] lowered).take 3
  match Text.secondPiece ['@'] lowered with
  | none => .error ("Not a weekly time: \"" ++ String.ofList text ++ "\" (use mon@09:30)")
  | some clock =>
      if dayName ∉ weekdays ∨ clock = [] then
        .error ("Not a weekly time: \"" ++ String.ofList text ++ "\" (use mon@09:30)")
      else
        let (hour, minute) ← parseClock clock
        return .weekly (weekdays.idxOf dayName) hour minute

variable {hour minute weekday : ℕ} {schedule : Schedule} {clock name : List Char}

/-- A time of day is one or two digits, a colon and two digits, within the day. -/
theorem parseClock_eq_ok_iff (text : List Char) (hour minute : ℕ) :
    parseClock text = .ok (hour, minute) ↔
      ∃ hours minutes, trim text = hours ++ ':' :: minutes ∧ Digits hours ∧
        (hours.length = 1 ∨ hours.length = 2) ∧ Digits minutes ∧ minutes.length = 2 ∧
          value hours = hour ∧
        value minutes = minute ∧ hour < 24 ∧ minute < 60 := by
  unfold parseClock
  constructor
  · intro h
    simp only at h
    split at h
    next minutes hminutes =>
      split at h
      next hshape =>
        split at h
        next => cases h
        next hwithin =>
          obtain ⟨rfl, rfl⟩ := Prod.mk.inj (Except.ok.inj h)
          obtain ⟨hhours, hlength, hdigits⟩ := hshape
          refine ⟨_, minutes, ?_, Sdk.digits_takeWhile _, hhours, List.all_eq_true.mp hdigits,
            hlength, rfl, rfl, ?_⟩
          · rw [← hminutes, List.takeWhile_append_dropWhile]
          · omega
      next => cases h
    next => cases h
  · rintro ⟨hours, minutes, hclock, hhours, hlength, hminutes, htwo, rfl, rfl, hhour, hminute⟩
    obtain ⟨htake, hdrop⟩ : _ ∧ (hours ++ ':' :: minutes).dropWhile Char.isDigit = ':' :: minutes :=
      Sdk.span_append hhours (by rintro c ⟨⟩; rfl)
    simp only [hclock, htake, hdrop]
    rw [if_pos ⟨hlength, htwo, List.all_eq_true.mpr hminutes⟩, if_neg (by omega)]

theorem digits_pad (n : ℕ) : Digits (Sdk.pad n) := (digits_toDigits n).padStart 2

theorem length_pad {n : ℕ} (hsmall : n < 100) : (Sdk.pad n).length = 2 := by
  apply length_padStart
  rw [Nat.length_toDigits_le_iff (by decide) (by decide)]
  exact hsmall

/-- A clock is written in digits and a colon. -/
theorem mem_clockText {c : Char} (hmem : c ∈ Sdk.clockText hour minute) :
    c.isDigit = true ∨ c = ':' := by
  rcases List.mem_append.mp hmem with hhour | hrest
  · exact .inl (digits_pad hour c hhour)
  · rcases List.mem_cons.mp hrest with hcolon | hminute
    · exact .inr hcolon
    · exact .inl (digits_pad minute c hminute)

theorem not_space_clockText {c : Char} (hmem : c ∈ Sdk.clockText hour minute) :
    isSpace c = false := by
  rcases mem_clockText hmem with hdigit | rfl
  · exact not_space_of_digit hdigit
  · decide

theorem lower_clockText (hour minute : ℕ) :
    lower (Sdk.clockText hour minute) = Sdk.clockText hour minute := by
  apply lower_eq_self
  intro c hmem
  rcases mem_clockText hmem with hdigit | rfl
  · exact lowerChar_digit hdigit
  · decide

/-- A clock is read as it was written. -/
theorem parseClock_clockText (hhour : hour < 24) (hminute : minute < 60) :
    parseClock (Sdk.clockText hour minute) = .ok (hour, minute) := by
  rw [parseClock_eq_ok_iff]
  refine ⟨Sdk.pad hour, Sdk.pad minute, ?_, digits_pad hour, .inr (length_pad (by omega)),
    digits_pad minute, length_pad (by omega), ?_, ?_, hhour, hminute⟩
  · apply trim_eq_self
    · exact fun c hc => not_space_clockText (List.mem_of_head? hc)
    · exact fun c hc => not_space_clockText (List.mem_of_getLast? hc)
  · rw [Sdk.pad, value_padStart, value_toDigits]
  · rw [Sdk.pad, value_padStart, value_toDigits]

theorem parseDaily_eq_ok (h : parseDaily text = .ok schedule) :
    ∃ hour minute, parseClock text = .ok (hour, minute) ∧ schedule = .daily hour minute := by
  unfold parseDaily at h
  cases hclock : parseClock text with
  | error message =>
      rw [hclock] at h
      cases h
  | ok clock =>
      rw [hclock] at h
      exact ⟨clock.1, clock.2, rfl, (Except.ok.inj h).symm⟩

theorem parseWeekly_eq_ok (h : parseWeekly text = .ok schedule) :
    ∃ clock hour minute, (Text.firstPiece ['@'] (lower text)).take 3 ∈ weekdays ∧
      parseClock clock = .ok (hour, minute) ∧
      schedule = .weekly (weekdays.idxOf ((Text.firstPiece ['@'] (lower text)).take 3))
        hour minute := by
  unfold parseWeekly at h
  simp only at h
  split at h
  next => cases h
  next clock hpiece =>
    split at h
    next => cases h
    next hknown =>
      cases hclock : parseClock clock with
      | error message =>
          rw [hclock] at h
          cases h
      | ok time =>
          rw [hclock] at h
          exact ⟨clock, time.1, time.2, not_not.mp (not_or.mp hknown).1, hclock,
            (Except.ok.inj h).symm⟩

theorem nodup_weekdays : weekdays.Nodup := by decide

theorem parseWeekly_clockText (hname : '@' ∉ lower name)
    (hday : weekdays[weekday]? = some ((lower name).take 3))
    (hhour : hour < 24) (hminute : minute < 60) :
    parseWeekly (name ++ '@' :: Sdk.clockText hour minute) = .ok (.weekly weekday hour minute) := by
  have hlower : lower (name ++ '@' :: Sdk.clockText hour minute) =
      lower name ++ (['@'] ++ Sdk.clockText hour minute) := by
    rw [lower, List.flatMap_append, List.flatMap_cons]
    exact congrArg (lower name ++ '@' :: ·) (lower_clockText hour minute)
  have hnone : ¬['@'] <:+: Sdk.clockText hour minute := by
    intro hinside
    rcases mem_clockText (hinside.subset List.mem_cons_self) with hdigit | hcolon
    · cases hdigit
    · cases hcolon
  have hfirst : Text.firstPiece ['@'] (lower name ++ (['@'] ++ Sdk.clockText hour minute)) =
      lower name :=
    Text.firstPiece_append_mark hname
  have hsecond : Text.secondPiece ['@'] (lower name ++ (['@'] ++ Sdk.clockText hour minute)) =
      some (Sdk.clockText hour minute) := by
    rw [Text.secondPiece, Text.cut_append_mark hname]
    exact congrArg some (Text.firstPiece_of_not_infix hnone)
  have hindex : weekdays.idxOf ((lower name).take 3) = weekday := by
    obtain ⟨hlt, hsame⟩ := List.getElem?_eq_some_iff.mp hday
    rw [← hsame]
    exact nodup_weekdays.idxOf_getElem weekday hlt
  have hclock : Sdk.clockText hour minute ≠ [] := by simp [Sdk.clockText]
  unfold parseWeekly
  simp only [hlower, hfirst, hsecond, hindex]
  rw [if_neg (not_or.mpr ⟨not_not.mpr (List.mem_of_getElem? hday), hclock⟩),
    parseClock_clockText hhour hminute]
  rfl

/-- The names of the days begin as the command line abbreviates them. -/
theorem lower_weekdayName (hweekday : weekday < 7) :
    '@' ∉ lower (Sdk.weekdayName weekday) ∧
      weekdays[weekday]? = some ((lower (Sdk.weekdayName weekday)).take 3) := by
  have hall : ∀ day : Fin 7, '@' ∉ lower (Sdk.weekdayName day) ∧
      weekdays[day.val]? = some ((lower (Sdk.weekdayName day)).take 3) := by decide
  exact hall ⟨weekday, hweekday⟩

/-- Every calendar schedule that is read is one the registry accepts, and every such schedule can
be typed with the name and the time that describe it. -/
theorem typed_schedules :
    (∀ text schedule, parseDaily text = .ok schedule ∨ parseWeekly text = .ok schedule →
      scheduleIsValid schedule = true ∧ schedule ≠ .interval) ∧
    (∀ hour minute interval, scheduleIsValid (.daily hour minute) = true →
      (∃ clock, Sdk.describeSchedule (.daily hour minute) interval =
        "daily at ".toList ++ clock ++ " UTC".toList) ∧
      ∀ clock, Sdk.describeSchedule (.daily hour minute) interval =
          "daily at ".toList ++ clock ++ " UTC".toList →
        parseDaily clock = .ok (.daily hour minute)) ∧
    ∀ weekday hour minute interval, scheduleIsValid (.weekly weekday hour minute) = true →
      (∃ name clock, clock.length = 5 ∧
        Sdk.describeSchedule (.weekly weekday hour minute) interval =
        name ++ "s at ".toList ++ clock ++ " UTC".toList) ∧
      ∀ name clock, clock.length = 5 →
        Sdk.describeSchedule (.weekly weekday hour minute) interval =
          name ++ "s at ".toList ++ clock ++ " UTC".toList →
        parseWeekly (name ++ '@' :: clock) = .ok (.weekly weekday hour minute) := by
  refine ⟨?_, ?_, ?_⟩
  · rintro text schedule (h | h)
    · obtain ⟨hour, minute, hclock, rfl⟩ := parseDaily_eq_ok h
      obtain ⟨-, -, -, -, -, -, -, -, -, hhour, hminute⟩ := (parseClock_eq_ok_iff _ _ _).mp hclock
      exact ⟨by simp [scheduleIsValid, hhour, hminute], by rintro ⟨⟩⟩
    · obtain ⟨clock, hour, minute, hday, hclock, rfl⟩ := parseWeekly_eq_ok h
      obtain ⟨-, -, -, -, -, -, -, -, -, hhour, hminute⟩ := (parseClock_eq_ok_iff _ _ _).mp hclock
      have hweekday : weekdays.idxOf ((Text.firstPiece ['@'] (lower text)).take 3) < 7 :=
        List.idxOf_lt_length_of_mem hday
      exact ⟨by simp [scheduleIsValid, hhour, hminute, hweekday], by rintro ⟨⟩⟩
  · intro hour minute interval hvalid
    refine ⟨⟨Sdk.clockText hour minute, rfl⟩, ?_⟩
    intro clock hdescribed
    simp only [scheduleIsValid, Bool.and_eq_true, decide_eq_true_eq] at hvalid
    have hclock : Sdk.clockText hour minute = clock :=
      List.append_cancel_left (List.append_cancel_right hdescribed)
    unfold parseDaily
    rw [← hclock, parseClock_clockText hvalid.1 hvalid.2]
    rfl
  · intro weekday hour minute interval hvalid
    simp only [scheduleIsValid, Bool.and_eq_true, decide_eq_true_eq] at hvalid
    obtain ⟨⟨hweekday, hhour⟩, hminute⟩ := hvalid
    have hwritten : (Sdk.clockText hour minute).length = 5 := by
      rw [Sdk.clockText, List.length_append, List.length_cons, length_pad (by omega),
        length_pad (by omega)]
    refine ⟨⟨Sdk.weekdayName weekday, Sdk.clockText hour minute, hwritten, rfl⟩, ?_⟩
    intro name clock hfive hdescribed
    have hlength : (Sdk.clockText hour minute).length = clock.length := hwritten.trans hfive.symm
    obtain ⟨hbefore, hclock⟩ := List.append_inj' (List.append_cancel_right hdescribed) hlength
    have hname : Sdk.weekdayName weekday = name := List.append_cancel_right hbefore
    obtain ⟨hsign, hday⟩ := lower_weekdayName hweekday
    rw [← hname, ← hclock]
    exact parseWeekly_clockText hsign hday hhour hminute

theorem typed_schedules_monday :
    parseWeekly ['M', 'o', 'n', 'd', 'a', 'y', '@', '0', '9', ':', '3', '0'] =
      .ok (.weekly 0 9 30) :=
  (typed_schedules.2.2 0 9 30 604800 (by decide)).2 ['M', 'o', 'n', 'd', 'a', 'y']
    ['0', '9', ':', '3', '0'] rfl
    (by decide)

end SoroCron.KeeperBot
