import SoroCron.Foundation.Scanning
import SoroCron.Registry.System
import SoroCron.Sdk.Amounts

/-! # Events of the RPC server

The server keeps events for a limited window of ledgers. Who asks for an earlier ledger is told the
window in a text, from which the SDK reads where the window starts, and asks again from a little
later on.
-/

namespace SoroCron.Sdk

open Decimal

/-! ## Ledgers -/

/-- The ledger that closes at a time. -/
structure LedgerClock where
  ledgerOf : Timestamp → ℕ
  ordered : Monotone ledgerOf

/-- A ledger every five seconds. -/
def everyFive : LedgerClock where
  ledgerOf time := time / 5
  ordered _ _ hle := Nat.div_le_div_right hle

/-- Where the events of `ledger` and later ones begin in the log. -/
def LedgerClock.firstOf (clock : LedgerClock) (log : List (Timestamp × Event)) (ledger : ℕ) : ℕ :=
  (log.takeWhile fun entry => clock.ledgerOf entry.1 < ledger).length

/-- The ledgers that the server has. -/
structure LedgerRange where
  earliest : ℕ
  latest : ℕ

namespace LedgerRange

def Covers (range : LedgerRange) (ledger : ℕ) : Prop :=
  range.earliest ≤ ledger ∧ ledger ≤ range.latest

instance (range : LedgerRange) (ledger : ℕ) : Decidable (range.Covers ledger) :=
  inferInstanceAs (Decidable (_ ∧ _))

/-- `startLedger must be within the ledger range: `. -/
def rangeWords : List Char := "startLedger must be within the ledger range: ".toList

/-- What the server tells who asks for another ledger. -/
def message (range : LedgerRange) : List Char :=
  rangeWords ++ (Nat.toDigits 10 range.earliest ++ (" - ".toList ++ Nat.toDigits 10 range.latest))

/-- A page of what begins at `startLedger`, or the error. -/
def serve {α : Type} (range : LedgerRange) (startLedger : ℕ) (page : α) : Except LedgerRange α :=
  if range.Covers startLedger then .ok page else .error range

end LedgerRange

/-- The ledgers that a server has at a time, from the `earliest` it still has. -/
def LedgerClock.range (clock : LedgerClock) (now : Timestamp) (earliest : ℕ) : LedgerRange where
  earliest
  latest := clock.ledgerOf now

/-! ## The range error -/

/-- The text behind `-` or `and`. -/
def behindSeparator : List Char → Option (List Char)
  | '-' :: rest => some rest
  | 'a' :: 'n' :: 'd' :: rest => some rest
  | _ => none

/-- The first number of a match of `(\d+)\s*(?:-|and)\s*(\d+)` that begins where the text does,
and the length of the match. Digits, blanks and separators differ, so each part is as long as it
can be. -/
def rangeHere (text : List Char) : Option (ℕ × ℕ) := do
  let digits := text.takeWhile Char.isDigit
  let rest ← behindSeparator ((text.dropWhile Char.isDigit).dropWhile isSpace)
  let behind := rest.dropWhile isSpace
  let others := behind.takeWhile Char.isDigit
  if digits ≠ [] ∧ others ≠ [] then
    some (value digits, text.length - behind.length + others.length)
  else
    none

/-- Earliest ledger the server still has, read from the text of its error. -/
def retentionStart (text : List Char) : Option ℕ := (Scanning.matchAll rangeHere text).head?

/-- Ledgers skipped past the retention start when clamping. -/
def retentionMargin : ℕ := 12

/-- Where to ask again after an error, if the server no longer has the start. -/
def retryFrom (startLedger : ℕ) (range : LedgerRange) : Option ℕ :=
  match retentionStart range.message with
  | none => none
  | some earliest =>
      -- The window's start moves with every ledger.
      if earliest ≤ startLedger then none else some (earliest + retentionMargin)

/-! ## What is read from it -/

section First

variable {clock : LedgerClock} {log more : List (Timestamp × Event)} {ledger : ℕ}

theorem LedgerClock.firstOf_le (clock : LedgerClock) (log : List (Timestamp × Event)) (ledger : ℕ) :
    clock.firstOf log ledger ≤ log.length :=
  (List.takeWhile_sublist _).length_le

/-- A ledger's first event stays where it is. -/
theorem LedgerClock.firstOf_append (hmore : ∀ entry ∈ more, ledger ≤ clock.ledgerOf entry.1) :
    clock.firstOf (log ++ more) ledger = clock.firstOf log ledger := by
  rw [firstOf, firstOf, List.takeWhile_append]
  split
  next hall =>
    have hnone : more.takeWhile (fun entry => decide (clock.ledgerOf entry.1 < ledger)) = [] := by
      cases more with
      | nil => rfl
      | cons entry rest =>
          apply List.takeWhile_cons_of_neg
          simpa using hmore entry List.mem_cons_self
    rw [hnone, List.append_nil, hall]
  next => rfl

/-- Where nothing is found from a ledger on, nothing is from a later one. -/
theorem LedgerClock.firstOf_end {later : ℕ} (hnone : clock.firstOf log ledger = log.length)
    (hle : ledger ≤ later) : clock.firstOf log later = log.length := by
  have hall : log.takeWhile (fun entry => decide (clock.ledgerOf entry.1 < ledger)) = log :=
    (List.takeWhile_prefix _).eq_of_length hnone
  rw [List.takeWhile_eq_self_iff] at hall
  have hlater : log.takeWhile (fun entry => decide (clock.ledgerOf entry.1 < later)) = log := by
    rw [List.takeWhile_eq_self_iff]
    intro entry hentry
    exact decide_eq_true (lt_of_lt_of_le (of_decide_eq_true (hall entry hentry)) hle)
  rw [firstOf, hlater]

end First

theorem rangeHere_of_not_digit {sign : Char} (hsign : sign.isDigit = false) (rest : List Char) :
    rangeHere (sign :: rest) = none := by
  have hdigits : (sign :: rest).takeWhile Char.isDigit = [] :=
    List.takeWhile_cons_of_neg (by simp [hsign])
  unfold rangeHere
  rw [hdigits]
  cases behindSeparator (((sign :: rest).dropWhile Char.isDigit).dropWhile isSpace) with
  | none => rfl
  | some rest =>
      rw [Option.bind_eq_bind, Option.bind_some]
      apply if_neg
      rintro ⟨hnone, -⟩
      exact hnone rfl

theorem rangeHere_digits (earliest latest : ℕ) :
    ∃ length, rangeHere (Nat.toDigits 10 earliest ++ (" - ".toList ++ Nat.toDigits 10 latest)) =
      some (earliest, length) := by
  have hblank : ∀ c ∈ (" - ".toList ++ Nat.toDigits 10 latest).head?, c.isDigit = false := by
    rintro _ ⟨⟩
    rfl
  obtain ⟨hdigits, hbehind⟩ := span_append (digits_toDigits earliest) hblank
  have hseparator : behindSeparator ((" - ".toList ++ Nat.toDigits 10 latest).dropWhile isSpace) =
      some ([' '] ++ Nat.toDigits 10 latest) := rfl
  have hspace : ∀ c ∈ [' '], isSpace c = true := List.forall_mem_singleton.mpr (by decide)
  obtain ⟨-, hlast⟩ := span_append hspace
    (head?_digit (digits_toDigits latest) Nat.toDigits_ne_nil [])
  have hend : ∀ c ∈ ([] : List Char).head?, c.isDigit = false := by rintro _ ⟨⟩
  obtain ⟨hothers, -⟩ := span_append (digits_toDigits latest) hend
  rw [List.append_nil] at hlast hothers
  unfold rangeHere
  rw [hdigits, hbehind, hseparator, Option.bind_eq_bind, Option.bind_some]
  dsimp only
  rw [hlast, hothers, if_pos ⟨Nat.toDigits_ne_nil, Nat.toDigits_ne_nil⟩, value_toDigits]
  exact ⟨_, rfl⟩

/-- The SDK reads from the error where the server's window starts. -/
theorem retentionStart_message (range : LedgerRange) :
    retentionStart range.message = some range.earliest := by
  obtain ⟨length, hhere⟩ := rangeHere_digits range.earliest range.latest
  have hwords : LedgerRange.rangeWords.all (fun sign => !sign.isDigit) = true := by decide +kernel
  have hmiss : ∀ sign ∈ LedgerRange.rangeWords, ∀ rest, rangeHere (sign :: rest) = none := by
    intro sign hmem
    exact rangeHere_of_not_digit (by simpa using List.all_eq_true.mp hwords sign hmem)
  have hne := List.append_ne_nil_of_left_ne_nil (@Nat.toDigits_ne_nil range.earliest 10)
    (" - ".toList ++ Nat.toDigits 10 range.latest)
  rw [retentionStart, LedgerRange.message, Scanning.matchAll_append hmiss]
  exact Scanning.head?_matchAll hne hhere

/-- Older servers word the error in another way. -/
example : retentionStart "startLedger must be between 4954218 and 5075177".toList =
    some 4954218 := by decide

theorem retryFrom_eq (startLedger : ℕ) (range : LedgerRange) :
    retryFrom startLedger range =
      if range.earliest ≤ startLedger then none else some (range.earliest + retentionMargin) := by
  rw [retryFrom, retentionStart_message]

end SoroCron.Sdk
