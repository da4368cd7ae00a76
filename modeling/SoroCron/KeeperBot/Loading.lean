import SoroCron.KeeperBot.Watching
import SoroCron.Sdk.Paging

/-! # The pages of a load

What the keeper's index is told page by page while it loads all jobs and nobody calls the
registry.
-/

namespace SoroCron.KeeperBot

variable {World : Type} {host : Host World} {w : Watched World}

/-! ## Answers -/

/-- The jobs that an answer to the index carries. -/
def pageJobs (w : Watched World) : WatchAction World → List Job
  | .answered _ =>
      match w.index.pending with
      | .getJobs _ _ start _ => w.chain.reg.jobs.getJobs start page
      | _ => []
  | _ => []

/-- The watched registry, telling the jobs on the pages. -/
def loading (host : Host World) : Machine (Watched World) (WatchAction World) Job where
  step := watch host
  out := pageJobs

/-- Only answers arrive, and nobody calls the registry. -/
def Undisturbed (_ : Watched World) : WatchAction World → Prop
  | .registry action => isCall action = false
  | .answered _ => True
  | .load | .sync | .failed => False

instance (w : Watched World) : DecidablePred (Undisturbed w) := fun action =>
  match action with
  | .registry action => inferInstanceAs (Decidable (isCall action = false))
  | .answered _ => inferInstanceAs (Decidable True)
  | .load | .sync | .failed => inferInstanceAs (Decidable False)

def isAnswer : WatchAction World → Bool
  | .answered _ => true
  | _ => false

/-! ## Answers still to come -/

def pagesLeft (count start : ℕ) : ℕ := (Paging.starts page count start).length

/-- How many answers the load still needs until all pages are there. -/
def answersLeft (w : Watched World) : ℕ :=
  match w.index.pending with
  | .latestLedger => 2 + pagesLeft w.chain.reg.jobs.jobCount 0
  | .jobCount _ => 1 + pagesLeft w.chain.reg.jobs.jobCount 0
  | .getJobs _ count start _ => pagesLeft count start
  | _ => 0

theorem pagesLeft_of_lt {count start : ℕ} (hlt : start < count) :
    pagesLeft count start = pagesLeft count (start + page) + 1 := by
  rw [pagesLeft, Paging.starts_of_lt (by decide) hlt, List.length_cons]
  rfl

theorem pagesLeft_of_le {count start : ℕ} (hle : count ≤ start) : pagesLeft count start = 0 := by
  rw [pagesLeft, Paging.starts_of_le hle, List.length_nil]

/-- The answers that the loop over the pages needs from `start` on. -/
theorem answersLeft_list (index : JobIndex) (latest : Timestamp) (count start : ℕ)
    (jobs : Listing JobId IndexedJob) :
    answersLeft { w with index := index.list latest count start jobs } = pagesLeft count start := by
  unfold JobIndex.list
  split
  · rfl
  next hdone => exact (pagesLeft_of_le (Nat.not_lt.mp hdone)).symm

theorem answersLeft_answered (w : Watched World) (reply : Reply) :
    answersLeft (watch host w (.answered reply)) = answersLeft w - 1 := by
  have hsame : answersLeft (watch host w (.answered reply)) =
      answersLeft { w with index := w.index.answered w.chain reply } := rfl
  rw [hsame]
  cases hpending : w.index.pending with
  | latestLedger =>
      simp only [answersLeft, JobIndex.answered, hpending]
      omega
  | jobCount latest =>
      rw [JobIndex.answered, hpending, answersLeft_list]
      simp only [answersLeft, hpending]
      omega
  | getJobs latest count start jobs =>
      rw [JobIndex.answered, hpending, answersLeft_list]
      simp only [answersLeft, hpending]
      rcases Nat.lt_or_ge start count with hlt | hdone
      · rw [pagesLeft_of_lt hlt, Nat.add_sub_cancel]
      · rw [pagesLeft_of_le hdone, pagesLeft_of_le (hdone.trans (Nat.le_add_right start page))]
  | nextPage =>
      cases hplace : w.index.position w.chain.log with
      | none => simp only [answersLeft, JobIndex.answered, hpending, hplace]
      | some start => simp only [answersLeft, JobIndex.answered, hpending, hplace]
  | applying events cursor short =>
      cases events with
      | cons event rest => simp only [answersLeft, JobIndex.answered, hpending]
      | nil => cases short <;> simp [answersLeft, JobIndex.answered, hpending]
  | _ => simp only [answersLeft, JobIndex.answered, hpending]

theorem answersLeft_quiet {action : Action World} (hcall : isCall action = false) :
    answersLeft (watch host w (.registry action)) = answersLeft w := by
  have hjobs : (step host w.chain action).reg.jobs = w.chain.reg.jobs := (step_quiet hcall).2
  simp only [answersLeft, watch, hjobs]

theorem answersLeft_run {actions : List (WatchAction World)}
    (halong : (loading host).Along Undisturbed w actions) :
    answersLeft ((loading host).run w actions) = answersLeft w - actions.countP isAnswer := by
  induction actions generalizing w with
  | nil => rfl
  | cons action rest ih =>
      rw [Machine.run_cons, ih halong.2]
      cases action with
      | answered reply =>
          rw [List.countP_cons_of_pos rfl]
          change answersLeft (watch host w (.answered reply)) - _ = _
          rw [answersLeft_answered]
          omega
      | registry action =>
          rw [List.countP_cons_of_neg Bool.false_ne_true]
          change answersLeft (watch host w (.registry action)) - _ = _
          rw [answersLeft_quiet halong.1]
      | load => cases halong.1
      | sync => cases halong.1
      | failed => cases halong.1

/-! ## What the pages told -/

/-- During a load the pages so far told the jobs below where the next page begins. -/
def ToldSoFar (jobs : JobTable) (past : List Job) (w : Watched World) : Prop :=
  w.chain.reg.jobs = jobs ∧
    match w.index.pending with
    | .latestLedger | .jobCount _ => past = []
    | .getJobs _ count start _ =>
        count = jobs.jobCount ∧ start < count ∧ past = Paging.found jobs.getJob 0 start
    | .firstEvent _ | .idle => past = Paging.found jobs.getJob 0 jobs.jobCount
    | _ => False

variable {jobs : JobTable} {past : List Job}

/-- The loop goes on from `start`, or is done. -/
theorem ToldSoFar.list (hjobs : w.chain.reg.jobs = jobs) (index : JobIndex) (latest : Timestamp)
    {start : ℕ} (listed : Listing JobId IndexedJob)
    (hpast : past = Paging.found jobs.getJob 0 (min start jobs.jobCount)) :
    ToldSoFar jobs past { w with index := index.list latest jobs.jobCount start listed } := by
  refine ⟨hjobs, ?_⟩
  by_cases hmore : start < jobs.jobCount
  · rw [Nat.min_eq_left hmore.le] at hpast
    simp only [JobIndex.list, if_pos hmore]
    exact ⟨trivial, hmore, hpast⟩
  · rw [Nat.min_eq_right (Nat.not_lt.mp hmore)] at hpast
    simp only [JobIndex.list, if_neg hmore]
    exact hpast

theorem ToldSoFar.answered (hids : jobs.nextJobId ≤ u64Max) (h : ToldSoFar jobs past w)
    (reply : Reply) :
    ToldSoFar jobs (past ++ pageJobs w (.answered reply)) (watch host w (.answered reply)) := by
  obtain ⟨hjobs, htold⟩ := h
  cases hpending : w.index.pending with
  | latestLedger =>
      simp only [hpending] at htold
      simpa only [ToldSoFar, watch, JobIndex.answered, pageJobs, hpending, List.append_nil]
        using ⟨hjobs, htold⟩
  | jobCount latest =>
      simp only [hpending] at htold
      simp only [watch, JobIndex.answered, pageJobs, hpending, htold, hjobs, List.append_nil]
      refine ToldSoFar.list (w := { w with quiet := _, read := _, held := _ }) hjobs _ latest ∅ ?_
      rw [Nat.zero_min]
      rfl
  | getJobs latest count start listed =>
      simp only [hpending] at htold
      obtain ⟨rfl, hmore, rfl⟩ := htold
      simp only [watch, JobIndex.answered, pageJobs, hpending, hjobs]
      refine ToldSoFar.list (w := { w with quiet := _, read := _, held := _ }) hjobs _ latest _ ?_
      -- The next page begins where this one ends.
      rw [show page = maxGetJobsLimit from rfl, JobTable.getJobs_page hids]
      apply Paging.found_append _ (Nat.zero_le start)
      exact Nat.le_min.mpr ⟨Nat.le_add_right _ _, hmore.le⟩
  | firstEvent latest =>
      simp only [hpending] at htold
      simpa only [ToldSoFar, watch, JobIndex.answered, pageJobs, hpending, List.append_nil]
        using ⟨hjobs, htold⟩
  | idle =>
      simp only [hpending] at htold
      simpa only [ToldSoFar, watch, JobIndex.answered, pageJobs, hpending, List.append_nil]
        using ⟨hjobs, htold⟩
  | _ =>
      simp only [hpending] at htold

theorem ToldSoFar.step (hids : jobs.nextJobId ≤ u64Max) (h : ToldSoFar jobs past w)
    {action : WatchAction World} (hquiet : Undisturbed w action) :
    ToldSoFar jobs (past ++ pageJobs w action) (watch host w action) := by
  cases action with
  | answered reply => exact h.answered hids reply
  | registry action =>
      change ToldSoFar jobs (past ++ []) _
      rw [List.append_nil]
      exact ⟨(step_quiet hquiet).2.trans h.1, h.2⟩
  | load => cases hquiet
  | sync => cases hquiet
  | failed => cases hquiet

/-- With all answers there, the pages told all jobs. -/
theorem load_tells_all (hids : w.chain.reg.jobs.nextJobId ≤ u64Max)
    (hidle : w.index.pending = .idle) {actions : List (WatchAction World)}
    (halong : (loading host).Along Undisturbed (watch host w .load) actions)
    (hanswers : 2 + pagesLeft w.chain.reg.jobs.jobCount 0 ≤ actions.countP isAnswer) :
    (loading host).outputs (watch host w .load) actions =
      Paging.found w.chain.reg.jobs.getJob 0 w.chain.reg.jobs.jobCount := by
  have hbegun : watch host w .load = { w with index := w.index.load, quiet := false } := by
    simp only [watch, Watched.begin, hidle]
  have hstart : ToldSoFar w.chain.reg.jobs [] (watch host w .load) := by
    rw [hbegun]
    exact ⟨rfl, rfl⟩
  obtain ⟨hjobs, htold⟩ := Machine.history_run (J := ToldSoFar w.chain.reg.jobs)
    (fun past w action h hquiet => ToldSoFar.step hids h hquiet) [] hstart halong
  have hleft : answersLeft ((loading host).run (watch host w .load) actions) = 0 := by
    rw [answersLeft_run halong, hbegun]
    exact Nat.sub_eq_zero_of_le hanswers
  rw [List.nil_append] at htold
  cases hpending : ((loading host).run (watch host w .load) actions).index.pending with
  | latestLedger =>
      simp only [answersLeft, hpending] at hleft
      omega
  | jobCount latest =>
      simp only [answersLeft, hpending] at hleft
      omega
  | getJobs latest count start listed =>
      simp only [hpending] at htold
      simp only [answersLeft, hpending, pagesLeft_of_lt htold.2.1] at hleft
      omega
  | firstEvent latest => simpa only [hpending] using htold
  | idle => simpa only [hpending] using htold
  | _ => simp only [hpending] at htold

end SoroCron.KeeperBot
