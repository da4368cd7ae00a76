import SoroCron.Foundation.Text
import SoroCron.KeeperRs.Registry

/-! # Whom a failed simulation is blamed on

The RPC answers a failed simulation with a text: a line with the host's error and the log of
diagnostic events, which repeats what nested calls failed with. The keeper searches the text
for the code of a contract error.
-/

namespace SoroCron.KeeperRs

/-- Registry error names by code. -/
def errorNames : List String :=
  ["Paused", "JobNotFound", "InvalidInterval", "InvalidFee", "InvalidAmount", "ForbiddenTarget",
    "JobNotDue", "InsufficientJobBalance", "MaxRunsReached", "ResolverRejected", "KeeperNotFound",
    "InsufficientStake", "KeeperUnbonding", "UnbondingNotStarted", "UnbondingNotFinished",
    "ExecutorNotSet", "ExecutorAlreadySet", "NoPendingAdmin", "JobPaused", "JobExpired",
    "IntervalTooShort", "TooManyArgs", "TargetFailed", "InvalidBatchSize", "LengthMismatch",
    "KeeperNotAllowed", "NotAssignedKeeper", "TargetHalted", "InvalidCalendar", "InvalidSetting",
    "TooManyKeepers", "AwaitingDependency", "NoPendingUpgrade", "UpgradeNotReady", "NoPendingOwner"]

/-- `parse::<usize>` on a 64-bit machine: decimal digits with at most a plus sign before them. -/
def parseUsize (text : List Char) : Option ℕ :=
  let digits := if text.head? = some '+' then text.tail else text
  if digits ≠ [] ∧ digits.all Char.isDigit = true then
    let value := Nat.ofDigitChars 10 digits 0
    if value ≤ u64Max then some value else none
  else
    none

/-- `Error(Contract, #`. -/
def contractMark : List Char :=
  ['E', 'r', 'r', 'o', 'r', '(', 'C', 'o', 'n', 't', 'r', 'a', 'c', 't', ',', ' ', '#']

/-- The code of the first contract error that a text mentions. -/
def contractCode (message : List Char) : Option ℕ := do
  let rest ← Text.secondPiece contractMark message
  parseUsize (rest.takeWhile (· ≠ ')'))

/-- The first line, without a carriage return before its line feed. -/
def firstLine (message : List Char) : List Char :=
  let line := message.takeWhile (· ≠ '\n')
  if line.length < message.length ∧ line.getLast? = some '\r' then line.dropLast else line

/-- Turns a simulation error into `Name (#code)` when it is a registry error. -/
def describeError (message : List Char) : List Char :=
  match contractCode message with
  | some code =>
      if 1 ≤ code ∧ code ≤ errorNames.length then
        (errorNames.getD (code - 1) "").toList ++ " (#".toList ++ Nat.toDigits 10 code ++ [')']
      else
        "contract error #".toList ++ Nat.toDigits 10 code
  | none => firstLine message

/-- What `executeBatch` makes of a failed simulation: registry errors apply to every job, any
other failure comes from something one of the jobs does. -/
def rejectionOf (message : List Char) : Rejection :=
  if '#' ∈ describeError message then .registryError else .other

example : describeError "HostError: Error(Contract, #7)\n...".toList =
    "JobNotDue (#7)".toList := by decide

/-! ## Simulation errors -/

/-- The host's own error: a contract's, or any other, whose names hold no number sign. -/
inductive HostError where
  | contract (code : ℕ) (hcode : code ≤ u32Max)
  | other (line : List Char) (hline : ∀ c ∈ line, c ≠ '#' ∧ c ≠ '\n')

/-- `HostError: `. -/
def hostMark : List Char := ['H', 'o', 's', 't', 'E', 'r', 'r', 'o', 'r', ':', ' ']

def HostError.line : HostError → List Char
  | .contract code _ => hostMark ++ contractMark ++ Nat.toDigits 10 code ++ [')']
  | .other line _ => line

/-- The diagnostic log, if there is one, begins on a line of its own. -/
def logText (log : Option (List Char)) : List Char :=
  match log with
  | some log => '\n' :: log
  | none => []

/-- A simulation error as the RPC returns it. -/
def errorText (error : HostError) (log : Option (List Char)) : List Char :=
  error.line ++ logText log

/-- A contract error applies to every job of the batch, any other comes from one of them. -/
def HostError.blame : HostError → BatchOutcome
  | .contract _ _ => .skipped
  | .other _ _ => .jobProblem

/-- The first contract error in a log comes with a number. -/
def NamesCode (log : List Char) : Prop :=
  ∃ before number rest, Text.cut contractMark log = some (before, number ++ rest) ∧
    (parseUsize number).isSome = true ∧ (rest = [] ∨ rest.head? = some ')' ∨ contractMark <+: rest)

theorem hash_mem_describeError {message : List Char} {code : ℕ}
    (h : contractCode message = some code) : '#' ∈ describeError message := by
  have hnamed : '#' ∈ " (#".toList := by decide
  have hplain : '#' ∈ "contract error #".toList := by decide
  unfold describeError
  rw [h]
  dsimp only
  split
  · simp only [List.mem_append, hnamed, true_or, or_true]
  · simp only [List.mem_append, hplain, true_or]

theorem describeError_of_none {message : List Char} (h : contractCode message = none) :
    describeError message = firstLine message := by
  rw [describeError, h]

theorem rejectionOf_eq_registryError {message : List Char} (hline : '#' ∉ firstLine message) :
    rejectionOf message = .registryError ↔ (contractCode message).isSome = true := by
  unfold rejectionOf
  cases hcode : contractCode message with
  | some code => simp [hash_mem_describeError hcode]
  | none => simp [describeError_of_none hcode, hline]

theorem parseUsize_toDigits {code : ℕ} (hcode : code ≤ u64Max) :
    parseUsize (Nat.toDigits 10 code) = some code := by
  have hdigits : ∀ c ∈ Nat.toDigits 10 code, c.isDigit = true :=
    fun c hc => Nat.isDigit_of_mem_toDigits (by decide) (by decide) hc
  have hplus : (Nat.toDigits 10 code).head? ≠ some '+' := by
    intro hhead
    have hdigit := hdigits '+' (List.mem_of_mem_head? hhead)
    exact absurd hdigit (by decide)
  unfold parseUsize
  rw [if_neg hplus, if_pos ⟨Nat.toDigits_ne_nil, List.all_eq_true.mpr hdigits⟩,
    Nat.ofDigitChars_ten_toDigits, if_pos hcode]

/-- What `parseUsize` accepts holds neither a parenthesis nor a letter. -/
theorem sign_of_parseUsize {number : List Char} (h : (parseUsize number).isSome = true) :
    ∀ c ∈ number, c = '+' ∨ c.isDigit = true := by
  have hdigits : ∀ c ∈ (if number.head? = some '+' then number.tail else number),
      c.isDigit = true := by
    unfold parseUsize at h
    dsimp only at h
    by_cases hall : (if number.head? = some '+' then number.tail else number) ≠ [] ∧
        (if number.head? = some '+' then number.tail else number).all Char.isDigit = true
    · exact List.all_eq_true.mp hall.2
    · rw [if_neg hall] at h
      cases h
  intro c hc
  split at hdigits
  next hplus =>
    cases number with
    | nil => cases hc
    | cons first rest =>
        rcases List.mem_cons.mp hc with rfl | hrest
        · exact .inl (Option.some.inj hplus)
        · exact .inr (hdigits c hrest)
  next => exact .inr (hdigits c hc)

theorem firstPiece_number {number rest : List Char} (h : (parseUsize number).isSome = true)
    (hrest : rest = [] ∨ rest.head? = some ')' ∨ contractMark <+: rest) :
    (Text.firstPiece contractMark (number ++ rest)).takeWhile (· ≠ ')') = number := by
  have hsign := sign_of_parseUsize h
  have hletter : 'E' ∉ number := by
    intro hmem
    rcases hsign 'E' hmem with hplus | hdigit
    · cases hplus
    · exact absurd hdigit (by decide)
  have hmark : ¬contractMark <:+: number := fun hinside => hletter (hinside.subset (by decide))
  have hall : ∀ c ∈ number, decide (c ≠ ')') = true := by
    intro c hc
    rw [decide_eq_true_eq]
    rintro rfl
    rcases hsign ')' hc with hplus | hdigit
    · cases hplus
    · exact absurd hdigit (by decide)
  rcases hrest with rfl | hclosed | ⟨tail, rfl⟩
  · rw [List.append_nil, Text.firstPiece_of_not_infix hmark, List.takeWhile_eq_self_iff.mpr hall]
  · obtain ⟨tail, rfl⟩ : ∃ tail, rest = ')' :: tail := by
      cases rest with
      | nil => cases hclosed
      | cons first tail =>
          cases hclosed
          exact ⟨tail, rfl⟩
    rw [Text.firstPiece_append_sep (by decide) (by decide) hmark, List.takeWhile_append_of_pos hall]
    simp
  · have hpiece : Text.firstPiece contractMark (number ++ (contractMark ++ tail)) = number :=
      Text.firstPiece_append_mark hletter
    rw [hpiece, List.takeWhile_eq_self_iff.mpr hall]

/-- The search finds a code in a log exactly if the first contract error there has one. -/
theorem contractCode_isSome {log : List Char} :
    (contractCode log).isSome = true ↔ NamesCode log := by
  have hcode : (contractCode log).isSome = true ↔
      ∃ before after, Text.cut contractMark log = some (before, after) ∧
      (parseUsize ((Text.firstPiece contractMark after).takeWhile (· ≠ ')'))).isSome = true := by
    unfold contractCode Text.secondPiece
    cases Text.cut contractMark log with
    | none => simp
    | some parts =>
        obtain ⟨before, after⟩ := parts
        simp
  rw [hcode]
  constructor
  · rintro ⟨before, after, hcut, hnumber⟩
    obtain ⟨tail, htail, hend⟩ := Text.exists_firstPiece_append contractMark after
    let piece := Text.firstPiece contractMark after
    have hsplit : piece = piece.takeWhile (· ≠ ')') ++ piece.dropWhile (· ≠ ')') :=
      (List.takeWhile_append_dropWhile).symm
    refine ⟨before, piece.takeWhile (· ≠ ')'), piece.dropWhile (· ≠ ')') ++ tail, ?_, hnumber, ?_⟩
    · rw [← List.append_assoc, ← hsplit, ← htail, hcut]
    · cases hpast : piece.dropWhile (· ≠ ')') with
      | nil => exact hend.imp_right .inr
      | cons sign past =>
          have hclosed := List.head?_dropWhile_not (· ≠ ')') piece
          rw [hpast] at hclosed
          have hsign : sign = ')' := by simpa using hclosed
          exact .inr (.inl (congrArg some hsign))
  · rintro ⟨before, number, rest, hcut, hnumber, hrest⟩
    refine ⟨before, number ++ rest, hcut, ?_⟩
    rwa [firstPiece_number hnumber hrest]

/-! ## Blame -/

theorem contractCode_contract {code : ℕ} (hcode : code ≤ u32Max) (log : Option (List Char)) :
    contractCode (errorText (.contract code hcode) log) = some code := by
  have hfits : code ≤ u64Max := hcode.trans (by decide)
  have hnumber := parseUsize_toDigits hfits
  have hcut : Text.cut contractMark (errorText (.contract code hcode) log) =
      some (hostMark, Nat.toDigits 10 code ++ ')' :: logText log) := by
    simp only [errorText, HostError.line, List.append_assoc, List.singleton_append]
    rfl
  unfold contractCode Text.secondPiece
  rw [hcut, Option.map_some, Option.bind_eq_bind, Option.bind_some,
    firstPiece_number (by rw [hnumber]; rfl) (.inr (.inl rfl)), hnumber]

section Other

variable {line : List Char} (hline : ∀ c ∈ line, c ≠ '#' ∧ c ≠ '\n')

include hline

/-- Without a contract error on the first line, the search is one in the log. -/
theorem contractCode_other (log : Option (List Char)) :
    (contractCode (errorText (.other line hline) log)).isSome = true ↔
      ∃ log' ∈ log, NamesCode log' := by
  have hmark : ¬contractMark <:+: line :=
    fun hinside => (hline '#' (hinside.subset (by decide))).1 rfl
  have hcode : ∀ text, contractCode text = (Text.secondPiece contractMark text).bind fun rest =>
      parseUsize (rest.takeWhile (· ≠ ')')) := fun text => rfl
  cases log with
  | none =>
      rw [hcode, errorText, logText, List.append_nil, HostError.line,
        Text.secondPiece_of_not_infix hmark]
      simp
  | some log =>
      have hsame : contractCode (errorText (.other line hline) (some log)) = contractCode log := by
        rw [hcode, hcode, errorText, logText, HostError.line,
          Text.secondPiece_append_sep (by decide) (by decide) hmark]
      rw [hsame, contractCode_isSome]
      simp

theorem hash_notMem_firstLine (log : Option (List Char)) :
    '#' ∉ firstLine (errorText (.other line hline) log) := by
  have hall : ∀ c ∈ line, decide (c ≠ '\n') = true := fun c hc => decide_eq_true (hline c hc).2
  have htake : (errorText (.other line hline) log).takeWhile (· ≠ '\n') = line := by
    rw [errorText, HostError.line, List.takeWhile_append_of_pos hall]
    cases log <;> simp [logText]
  have hhash : '#' ∉ line := fun hmem => (hline '#' hmem).1 rfl
  unfold firstLine
  rw [htake]
  dsimp only
  split
  · exact fun hmem => hhash (List.mem_of_mem_dropLast hmem)
  · exact hhash

end Other

section Blame

variable {View : Type}

/-- The simulation fails with `message`. -/
def Answers.failing (answers : Answers View) (message : List Char) : Answers View :=
  { answers with simulation := some (.error (rejectionOf message)) }

variable (config : Config) (jobIds : List JobId) (feeIsNative : Bool) (answers : Answers View)

theorem executeBatch_registryError {message : List Char}
    (h : rejectionOf message = .registryError) :
    executeBatch config jobIds feeIsNative (answers.failing message) = (some .skipped, []) := by
  simp only [executeBatch, Answers.failing, h]

theorem executeBatch_other {message : List Char} (h : rejectionOf message = .other) :
    executeBatch config jobIds feeIsNative (answers.failing message) = (some .jobProblem, []) := by
  simp only [executeBatch, Answers.failing, h]

/-- A failed simulation is blamed on the right party exactly if its error is a contract's, or
the first contract error in the log comes without a number. -/
theorem executeBatch_blames (error : HostError) (log : Option (List Char)) :
    executeBatch config jobIds feeIsNative (answers.failing (errorText error log)) =
      (some error.blame, []) ↔
      (∃ code hcode, error = .contract code hcode) ∨ ∀ log' ∈ log, ¬NamesCode log' := by
  cases error with
  | contract code hcode =>
      have hregistry : rejectionOf (errorText (.contract code hcode) log) = .registryError :=
        if_pos (hash_mem_describeError (contractCode_contract hcode log))
      exact iff_of_true (executeBatch_registryError config jobIds feeIsNative answers hregistry)
        (.inl ⟨code, hcode, rfl⟩)
  | other line hline =>
      have hregistry := rejectionOf_eq_registryError (hash_notMem_firstLine hline log)
      rw [contractCode_other hline log] at hregistry
      cases hrejection : rejectionOf (errorText (.other line hline) log) with
      | registryError =>
          obtain ⟨log', hlog, hnames⟩ := hregistry.mp hrejection
          rw [executeBatch_registryError config jobIds feeIsNative answers hrejection]
          refine iff_of_false nofun ?_
          rintro (⟨code, hcode, hcontract⟩ | hnone)
          · cases hcontract
          · exact hnone log' hlog hnames
      | other =>
          refine iff_of_true (executeBatch_other config jobIds feeIsNative answers hrejection)
            (.inr ?_)
          intro log' hlog hnames
          rw [hregistry.mpr ⟨log', hlog, hnames⟩] at hrejection
          cases hrejection

end Blame

/-- `HostError: Error(Budget, ExceededLimit)`. -/
def budgetExceeded : HostError :=
  .other "HostError: Error(Budget, ExceededLimit)".toList (by simp)

def noAnswers : Answers Unit where
  simulation := none
  authorized := true
  currentFee := fun _ => none
  send := none

/-- A nested call that failed before the budget ran out makes its error the registry's. -/
theorem budget_blamed_on_registry :
    let log := "Event log (newest first):\n0: [Failed Contract Event] Error(Contract, #7)".toList
    budgetExceeded.blame = .jobProblem ∧
      executeBatch plainConfig [1, 2] true
        (noAnswers.failing (errorText budgetExceeded (some log))) =
        (some .skipped, []) := by
  intro log
  have hregistry : rejectionOf (errorText budgetExceeded (some log)) = .registryError :=
    if_pos (by decide +kernel)
  exact ⟨rfl, executeBatch_registryError plainConfig [1, 2] true noAnswers hregistry⟩

end SoroCron.KeeperRs
