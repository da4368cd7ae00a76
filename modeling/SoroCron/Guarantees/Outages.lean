import SoroCron.KeeperBot.Passes

/-! # Every outage is reported

The keeper posts about an outage of its RPC in the third pass of it, whatever it posted about
earlier outages, and again only after the cooldown. A completed pass ends the outage. Passes in
which every send fails are counted apart, and thrown passes between them do not count. A post that
the webhook refuses counts for the cooldown like any other. -/

namespace SoroCron.KeeperBot

variable {settings : LoopSettings} {alerter : Alerter} {keeper : KeeperLoop} {key : AlertKey}
  {cooldownMs now : ℤ}
  {accepted : Bool} {posted : List Post} {ops : List AlertOp} {pass : Pass}

/-! ## One key -/

/-- What an operation of the alerter is about. -/
def AlertOp.subject : AlertOp → AlertKey
  | .notify key _ _ | .clear key => key

/-- When a key was posted last, accepted or not. -/
def lastPost (key : AlertKey) (posted : List Post) : Option ℤ :=
  (posted.filter fun post => post.key = key).getLast?.map Post.time

theorem lastPost_append_nil {later : List Post} (h : ∀ post ∈ later, post.key ≠ key) :
    lastPost key (posted ++ later) = lastPost key posted := by
  have hnone : (later.filter fun post => post.key = key) = [] := by
    rw [List.filter_eq_nil_iff]
    intro post hpost
    simpa using h post hpost
  rw [lastPost, List.filter_append, hnone, List.append_nil]
  rfl

theorem lastPost_concat : lastPost key (posted ++ [⟨key, now, accepted⟩]) = some now := by
  simp [lastPost]

/-- The alerter remembers when it posted a key last. -/
structure Tracks (cooldownMs : ℤ) (key : AlertKey) (posted : List Post) (alerter : Alerter) :
    Prop where
  enabled : alerter.enabled = true
  cooldown : alerter.cooldownMs = cooldownMs
  last : alerter.lastSent.get key = lastPost key posted

theorem mem_posts {op : AlertOp} {post : Post} (h : post ∈ alerter.posts op) :
    post.key = op.subject := by
  cases op with
  | notify key now accepted =>
      simp only [Alerter.posts] at h
      split at h
      · rw [List.mem_singleton.mp h]
        rfl
      · cases h
  | clear key => cases h

/-- Operations about other keys leave a key alone. -/
theorem lastSent_apply {op : AlertOp} (hother : op.subject ≠ key) :
    (alerter.apply op).lastSent.get key = alerter.lastSent.get key := by
  cases op with
  | notify other now accepted =>
      rw [Alerter.apply, notify_eq]
      split
      · exact Store.get_set_of_ne _ _ (Ne.symm hother)
      · rfl
  | clear other => exact Store.get_remove_of_ne _ (Ne.symm hother)

theorem settings_apply (alerter : Alerter) (op : AlertOp) :
    (alerter.apply op).enabled = alerter.enabled ∧ (alerter.apply op).cooldownMs =
      alerter.cooldownMs := by
  cases op with
  | notify other now accepted =>
      rw [Alerter.apply, notify_eq]
      split
      · exact ⟨rfl, rfl⟩
      · exact ⟨rfl, rfl⟩
  | clear other => exact ⟨rfl, rfl⟩

theorem Tracks.other {op : AlertOp} (h : Tracks cooldownMs key posted alerter)
    (hother : op.subject ≠ key) :
    Tracks cooldownMs key (posted ++ alerter.posts op) (alerter.apply op) := by
  obtain ⟨henabled, hcooldown⟩ := settings_apply alerter op
  refine ⟨henabled.trans h.enabled, hcooldown.trans h.cooldown, ?_⟩
  rw [lastSent_apply hother, h.last, lastPost_append_nil]
  intro post hpost
  rw [mem_posts hpost]
  exact hother

theorem Tracks.notify (h : Tracks cooldownMs key posted alerter) (now : ℤ) (accepted : Bool) :
    Tracks cooldownMs key (posted ++ alerter.posts (.notify key now accepted))
      (alerter.apply (.notify key now accepted)) := by
  obtain ⟨henabled, hcooldown⟩ := settings_apply alerter (.notify key now accepted)
  refine ⟨henabled.trans h.enabled, hcooldown.trans h.cooldown, ?_⟩
  rw [Alerter.apply, Alerter.posts, notify_eq]
  split
  · rw [lastPost_concat]
    exact Store.get_set_self _ _ _
  · rw [List.append_nil]
    exact h.last

/-- The alerter keeps track of a key until it is cleared. -/
theorem Tracks.run (h : Tracks cooldownMs key posted alerter) (hkept : .clear key ∉ ops) :
    Tracks cooldownMs key (posted ++ reports.outputs alerter ops) (reports.run alerter ops) := by
  induction ops generalizing alerter posted with
  | nil =>
      rw [Machine.outputs_nil, List.append_nil]
      exact h
  | cons op rest ih =>
      rw [List.mem_cons, not_or] at hkept
      rw [Machine.outputs_cons, ← List.append_assoc]
      refine ih ?_ hkept.2
      by_cases hother : op.subject = key
      · cases op with
        | notify other now accepted =>
            cases hother
            exact h.notify now accepted
        | clear other =>
            cases hother
            exact absurd rfl hkept.1
      · exact h.other hother

/-- What is posted was to be notified. -/
theorem mem_outputs {post : Post} (h : post ∈ reports.outputs alerter ops) :
    .notify post.key post.time post.accepted ∈ ops := by
  induction ops generalizing alerter with
  | nil => cases h
  | cons op rest ih =>
      rcases List.mem_append.mp h with hone | hlater
      · cases op with
        | notify key now accepted =>
            change post ∈ (if alerter.Fires key now then [(⟨key, now, accepted⟩ : Post)]
              else []) at hone
            split at hone
            · rw [List.mem_singleton.mp hone]
              exact List.mem_cons_self
            · cases hone
        | clear key => cases hone
      · exact List.mem_cons_of_mem _ (ih hlater)

theorem outputs_other (hothers : ∀ op ∈ ops, op.subject ≠ key) :
    ∀ post ∈ reports.outputs alerter ops, post.key ≠ key :=
  fun _ hpost => hothers _ (mem_outputs hpost)

/-- After other operations, a key is posted if its last post is a cooldown away. -/
theorem mem_outputs_last (h : Tracks cooldownMs key posted alerter)
    (hothers : ∀ op ∈ ops, op.subject ≠ key) {time : ℤ} {answer : Bool} :
    ⟨key, time, answer⟩ ∈ reports.outputs alerter (ops ++ [.notify key now accepted]) ↔
      (time = now ∧ answer = accepted) ∧ ∀ last ∈ lastPost key posted, cooldownMs ≤ now - last := by
  have hkept : .clear key ∉ ops := fun hmem => hothers _ hmem rfl
  have hafter := h.run hkept
  have hsame : lastPost key (posted ++ reports.outputs alerter ops) = lastPost key posted :=
    lastPost_append_nil (outputs_other hothers)
  have hfires : (reports.run alerter ops).Fires key now ↔
      ∀ last ∈ lastPost key posted, cooldownMs ≤ now - last := by
    rw [Alerter.Fires, hafter.last, hafter.cooldown, hsame]
    exact and_iff_right hafter.enabled
  rw [Machine.outputs_append, List.mem_append, or_iff_right fun hmem =>
    outputs_other hothers _ hmem rfl, Machine.outputs_cons, Machine.outputs_nil, List.append_nil]
  change _ ∈ (if (reports.run alerter ops).Fires key now then [(⟨key, now, accepted⟩ : Post)]
    else []) ↔ _
  rw [← hfires, List.mem_ite_nil_right, List.mem_singleton, Post.mk.injEq, and_iff_right rfl,
    and_comm]

/-! ## One pass -/

/-- The readings of a pass report nothing about its own end. -/
theorem readings_subject (settings : LoopSettings) (keeper : KeeperLoop) (pass : Pass) :
    ∀ op ∈ keeper.readings settings pass, op.subject ≠ .kind .rpcDown ∧
      op.subject ≠ .kind .runsFailing := by
  intro op hop
  rcases List.mem_append.mp hop with hbefore | hupgrade
  · rcases List.mem_append.mp hbefore with haccount | hstake
    · obtain ⟨reading, -, hop⟩ := List.mem_flatMap.mp haccount
      unfold checkAccount at hop
      split at hop
      · cases hop
      · split at hop
        · cases List.mem_singleton.mp hop
          exact ⟨by simp [AlertOp.subject], by simp [AlertOp.subject]⟩
        · cases List.mem_singleton.mp hop
          exact ⟨by simp [AlertOp.subject], by simp [AlertOp.subject]⟩
    · obtain ⟨reading, -, hop⟩ := List.mem_flatMap.mp hstake
      unfold checkStake at hop
      split at hop
      · cases List.mem_singleton.mp hop
        exact ⟨by simp [AlertOp.subject], by simp [AlertOp.subject]⟩
      · split at hop
        · cases List.mem_singleton.mp hop
          exact ⟨by simp [AlertOp.subject], by simp [AlertOp.subject]⟩
        · cases hop
  · unfold KeeperLoop.checkUpgrade at hupgrade
    split at hupgrade
    · split at hupgrade
      · dsimp only at hupgrade
        split at hupgrade
        · cases List.mem_singleton.mp hupgrade
          exact ⟨by simp [AlertOp.subject], by simp [AlertOp.subject]⟩
        · cases hupgrade
      · cases hupgrade
    · cases hupgrade
    · cases hupgrade

/-- The pass threw. -/
def Pass.threw (pass : Pass) : Bool :=
  match pass.ended with
  | .threw .. => true
  | .done .. => false

/-- The pass completed, and every send in it failed. -/
def Pass.fruitless (pass : Pass) : Bool :=
  match pass.ended with
  | .threw .. => false
  | .done executed failed _ _ => 0 < failed && executed = 0

/-- How many of the last completed passes were fruitless, thrown passes left out. -/
def fruitlessInARow (past : List Pass) : ℕ :=
  past.foldl (fun count pass =>
    if pass.threw then count else if pass.fruitless then count + 1 else 0) 0

/-- How many of the last passes threw. -/
def threwInARow (past : List Pass) : ℕ :=
  past.foldl (fun count pass => if pass.threw then count + 1 else 0) 0

theorem fruitlessInARow_concat (past : List Pass) (pass : Pass) : fruitlessInARow (past ++ [pass]) =
    if pass.threw then fruitlessInARow past else if pass.fruitless then fruitlessInARow past + 1
      else 0 :=
  List.foldl_append

theorem threwInARow_concat (past : List Pass) (pass : Pass) : threwInARow (past ++ [pass]) =
    if pass.threw then threwInARow past + 1 else 0 :=
  List.foldl_append

/-- The counters of the loop after some passes. -/
structure Counted (past : List Pass) (keeper : KeeperLoop) : Prop where
  ticks : keeper.failedTicks = threwInARow past
  sends : keeper.failedSends = fruitlessInARow past

theorem Counted.step {past : List Pass} (h : Counted past keeper) (pass : Pass) :
    Counted (past ++ [pass]) (keeper.step settings pass) := by
  refine ⟨?_, ?_⟩
  · rw [threwInARow_concat, KeeperLoop.step]
    cases hended : pass.ended with
    | threw now accepted => simp [KeeperLoop.finish, Pass.threw, hended, h.ticks]
    | done executed failed now accepted => simp [KeeperLoop.finish, Pass.threw, hended]
  · rw [fruitlessInARow_concat, KeeperLoop.step]
    cases hended : pass.ended with
    | threw now accepted => simp [KeeperLoop.finish, Pass.threw, hended, h.sends]
    | done executed failed now accepted =>
        simp [KeeperLoop.finish, Pass.threw, Pass.fruitless, hended, h.sends]

/-- A pass that does not complete leaves the last outage report in mind. -/
theorem Tracks.threw (h : Tracks cooldownMs (.kind .rpcDown) posted keeper.alerter)
    (hthrew : pass.threw = true) :
    Tracks cooldownMs (.kind .rpcDown) (posted ++ (passes settings).out keeper pass)
      ((passes settings).step keeper pass).alerter := by
  refine h.run ?_
  intro hmem
  rcases List.mem_append.mp hmem with hreading | hend
  · exact (readings_subject settings keeper pass _ hreading).1 rfl
  · cases hended : pass.ended with
    | threw now accepted =>
        rw [hended, KeeperLoop.finish] at hend
        dsimp only at hend
        split at hend
        · cases List.mem_singleton.mp hend
        · cases hend
    | done executed failed now accepted =>
        rw [Pass.threw, hended] at hthrew
        cases hthrew

/-- No pass forgets when failing sends were reported last. -/
theorem Tracks.sends (h : Tracks cooldownMs (.kind .runsFailing) posted keeper.alerter)
    (settings : LoopSettings) (pass : Pass) :
    Tracks cooldownMs (.kind .runsFailing) (posted ++ (passes settings).out keeper pass)
      ((passes settings).step keeper pass).alerter := by
  refine h.run ?_
  intro hmem
  rcases List.mem_append.mp hmem with hreading | hend
  · exact (readings_subject settings keeper pass _ hreading).2 rfl
  · cases hended : pass.ended with
    | threw now accepted =>
        rw [hended, KeeperLoop.finish] at hend
        dsimp only at hend
        split at hend
        · cases List.mem_singleton.mp hend
        · cases hend
    | done executed failed now accepted =>
        rw [hended, KeeperLoop.finish] at hend
        dsimp only at hend
        rcases List.mem_cons.mp hend with hclear | hnotify
        · cases hclear
        · cases List.mem_singleton.mp (List.mem_ite_nil_right.mp hnotify).2

/-- A pass that completes makes the loop forget its outage reports. -/
theorem Tracks.recovered (h : Tracks cooldownMs (.kind .runsFailing) posted keeper.alerter)
    (hdone : pass.threw = false) :
    Tracks cooldownMs (.kind .rpcDown) [] ((passes settings).step keeper pass).alerter := by
  obtain ⟨henabled, hcooldown, -⟩ := h.sends settings pass
  refine ⟨henabled, hcooldown, ?_⟩
  change (reports.run keeper.alerter (keeper.ops settings pass)).lastSent.get _ = none
  cases hended : pass.ended with
  | threw now accepted =>
      rw [Pass.threw, hended] at hdone
      cases hdone
  | done executed failed now accepted =>
      rw [KeeperLoop.ops, hended, KeeperLoop.finish, Machine.run_append, Machine.run_cons]
      generalize (if 0 < failed ∧ executed = 0 then keeper.failedSends + 1 else 0) = failedSends
      split
      · rw [Machine.run_cons, Machine.run_nil]
        exact (lastSent_apply (by simp [AlertOp.subject])).trans (Store.get_remove_self _ _)
      · exact Store.get_remove_self _ _

/-- When a pass reports an outage. -/
theorem rpcDown_posted (h : Tracks cooldownMs (.kind .rpcDown) posted keeper.alerter) {time : ℤ}
    {answer : Bool} : ⟨.kind .rpcDown, time, answer⟩ ∈ (passes settings).out keeper pass ↔
      pass.ended = .threw time answer ∧
      rpcDownAfter ≤ keeper.failedTicks + 1 ∧
        ∀ last ∈ lastPost (.kind .rpcDown) posted, cooldownMs ≤ time - last := by
  have hreadings := fun op hop => (readings_subject settings keeper pass op hop).1
  change _ ∈ reports.outputs keeper.alerter (keeper.ops settings pass) ↔ _
  cases hended : pass.ended with
  | threw now accepted =>
      rw [KeeperLoop.ops, hended, KeeperLoop.finish]
      dsimp only
      split
      next hlong =>
        rw [mem_outputs_last h hreadings, PassEnd.threw.injEq]
        constructor
        · rintro ⟨⟨rfl, rfl⟩, hlast⟩
          exact ⟨⟨rfl, rfl⟩, hlong, hlast⟩
        · rintro ⟨⟨rfl, rfl⟩, -, hlast⟩
          exact ⟨⟨rfl, rfl⟩, hlast⟩
      next hshort =>
        rw [List.append_nil]
        exact iff_of_false (fun hmem => outputs_other hreadings _ hmem rfl) fun hnow =>
          hshort hnow.2.1
  | done executed failed now accepted =>
      refine iff_of_false ?_ (by simp)
      intro hmem
      rw [KeeperLoop.ops, hended, KeeperLoop.finish] at hmem
      rcases List.mem_append.mp (mem_outputs hmem) with hreading | hend
      · exact hreadings _ hreading rfl
      · rcases List.mem_cons.mp hend with hclear | hnotify
        · cases hclear
        · cases List.mem_singleton.mp (List.mem_ite_nil_right.mp hnotify).2

/-- When a pass reports that its sends keep failing. -/
theorem runsFailing_posted (h : Tracks cooldownMs (.kind .runsFailing) posted keeper.alerter)
    {time : ℤ} {answer : Bool} :
    ⟨.kind .runsFailing, time, answer⟩ ∈ (passes settings).out keeper pass ↔
      ∃ executed failed, pass.ended = .done executed failed time answer ∧ pass.fruitless = true ∧
        runsFailingAfter ≤ keeper.failedSends + 1 ∧
        ∀ last ∈ lastPost (.kind .runsFailing) posted, cooldownMs ≤ time - last := by
  have hreadings := fun op hop => (readings_subject settings keeper pass op hop).2
  change _ ∈ reports.outputs keeper.alerter (keeper.ops settings pass) ↔ _
  cases hended : pass.ended with
  | threw now accepted =>
      refine iff_of_false ?_ (by simp)
      intro hmem
      rw [KeeperLoop.ops, hended, KeeperLoop.finish] at hmem
      rcases List.mem_append.mp (mem_outputs hmem) with hreading | hend
      · exact hreadings _ hreading rfl
      · dsimp only at hend
        split at hend
        · cases List.mem_singleton.mp hend
        · cases hend
  | done executed failed now accepted =>
      have hcleared : ∀ op ∈ keeper.readings settings pass ++ [.clear (.kind .rpcDown)],
          op.subject ≠ .kind .runsFailing := by
        intro op hop
        rcases List.mem_append.mp hop with hreading | hclear
        · exact hreadings op hreading
        · rw [List.mem_singleton.mp hclear]
          simp [AlertOp.subject]
      have hfruitless : pass.fruitless = true ↔ 0 < failed ∧ executed = 0 := by
        simp [Pass.fruitless, hended]
      rw [KeeperLoop.ops, hended, KeeperLoop.finish, List.append_cons]
      by_cases hreport : pass.fruitless = true ∧ runsFailingAfter ≤ keeper.failedSends + 1
      · obtain ⟨hnone, hlong⟩ := hreport
        simp only [if_pos (hfruitless.mp hnone), if_pos hlong]
        rw [mem_outputs_last h hcleared]
        constructor
        · rintro ⟨⟨rfl, rfl⟩, hlast⟩
          exact ⟨executed, failed, rfl, hnone, hlong, hlast⟩
        · rintro ⟨_, _, hsame, -, -, hlast⟩
          cases hsame
          exact ⟨⟨rfl, rfl⟩, hlast⟩
      · have hsilent : ¬ runsFailingAfter ≤ if 0 < failed ∧ executed = 0 then keeper.failedSends + 1
            else 0 := by
          split
          next hfailed => exact fun hlong => hreport ⟨hfruitless.mpr hfailed, hlong⟩
          next => decide
        rw [if_neg hsilent, List.append_nil]
        refine iff_of_false (fun hmem => outputs_other hcleared _ hmem rfl) ?_
        rintro ⟨_, _, -, hnone, hlong, -⟩
        exact hreport ⟨hnone, hlong⟩

/-! ## Over a run -/

theorem tracks_new {url : String} (henabled : url ≠ "") (cooldownMs : ℤ) (key : AlertKey) :
    Tracks cooldownMs key [] (KeeperLoop.new url cooldownMs).alerter :=
  ⟨decide_eq_true henabled, rfl, Store.get_empty _⟩

/-- After some passes, the last of which completed, the loop remembers no outage report. -/
theorem loop_run {url : String} (henabled : url ≠ "") (settings : LoopSettings) (cooldownMs : ℤ)
    (past : List Pass) : Counted past ((passes settings).run (.new url cooldownMs) past) ∧
      Tracks cooldownMs (.kind .runsFailing) ((passes settings).outputs (.new url cooldownMs) past)
        ((passes settings).run (.new url cooldownMs) past).alerter ∧
      ((∀ last ∈ past.getLast?, last.threw = false) →
        Tracks cooldownMs (.kind .rpcDown) []
          ((passes settings).run (.new url cooldownMs) past).alerter) := by
  refine Machine.record_run (m := passes settings) (J := fun past posted keeper =>
    Counted past keeper ∧
    Tracks cooldownMs (.kind .runsFailing) posted keeper.alerter ∧
      ((∀ last ∈ past.getLast?, last.threw = false) →
        Tracks cooldownMs (.kind .rpcDown) [] keeper.alerter))
    ?_ [] [] ⟨⟨rfl, rfl⟩, tracks_new henabled cooldownMs _,
      fun _ => tracks_new henabled cooldownMs _⟩ past
  rintro past posted keeper pass ⟨hcounted, hsends, -⟩
  refine ⟨hcounted.step pass, hsends.sends settings pass, ?_⟩
  intro hlast
  exact hsends.recovered (hlast pass (by simp))

theorem threwInARow_append {early late : List Pass}
    (hended : ∀ last ∈ early.getLast?, last.threw = false)
    (hlate : ∀ pass ∈ late, pass.threw = true) : threwInARow (early ++ late) = late.length := by
  induction late using List.reverseRecOn with
  | nil =>
      rw [List.append_nil]
      rcases List.eq_nil_or_concat' early with rfl | ⟨before, last, rfl⟩
      · rfl
      · rw [threwInARow_concat, hended last (by simp)]
        rfl
  | append_singleton late last ih =>
      rw [← List.append_assoc, threwInARow_concat, hlate last (by simp), if_pos rfl,
        ih fun pass hmem => hlate pass (List.mem_append_left _ hmem), List.length_append,
          List.length_singleton]

/-- In the thrown passes `late` since the last completed one, the outage is posted from the third on
whenever its last post is a cooldown away. Failing sends are posted from the third fruitless pass on
whenever their last post, of this or another time, is a cooldown away. Whether the webhook accepts a
post makes no difference to the later ones. -/
theorem outages_are_reported {url : String} (henabled : url ≠ "") (settings : LoopSettings)
    (cooldownMs : ℤ) {early late : List Pass} (hended : ∀ last ∈ early.getLast?, last.threw = false)
    (hlate : ∀ pass ∈ late, pass.threw = true) (pass : Pass) (time : ℤ) (accepted : Bool) :
    let start := KeeperLoop.new url cooldownMs
    let keeper := (passes settings).run start (early ++ late)
    (⟨.kind .rpcDown, time, accepted⟩ ∈ (passes settings).out keeper pass ↔
      pass.ended = .threw time accepted ∧ 2 ≤ late.length ∧
        ∀ last ∈ lastPost (.kind .rpcDown)
          ((passes settings).outputs ((passes settings).run start early) late),
          cooldownMs ≤ time - last) ∧
    (⟨.kind .runsFailing, time, accepted⟩ ∈ (passes settings).out keeper pass ↔
      ∃ executed failed, pass.ended = .done executed failed time accepted ∧ pass.fruitless = true ∧
        2 ≤ fruitlessInARow (early ++ late) ∧
        ∀ last ∈ lastPost (.kind .runsFailing) ((passes settings).outputs start (early ++ late)),
          cooldownMs ≤ time - last) := by
  obtain ⟨hcounted, hsends, -⟩ := loop_run henabled settings cooldownMs (early ++ late)
  obtain ⟨-, -, hforgot⟩ := loop_run henabled settings cooldownMs early
  have htracks : Tracks cooldownMs (.kind .rpcDown)
      ([] ++ (passes settings).outputs ((passes settings).run (.new url cooldownMs) early) late)
      ((passes settings).run ((passes settings).run (.new url cooldownMs) early) late).alerter := by
    have halong : (passes settings).Along (fun _ pass => pass.threw = true)
        ((passes settings).run (.new url cooldownMs) early) late := by
      rw [Machine.along_iff]
      rintro before pass after rfl
      exact hlate pass (by simp)
    exact Machine.history_run (J := fun posted keeper =>
      Tracks cooldownMs (.kind .rpcDown) posted keeper.alerter)
      (fun posted keeper pass h hthrew => h.threw hthrew) [] (hforgot hended) halong
  rw [← Machine.run_append, List.nil_append] at htracks
  refine ⟨?_, ?_⟩
  · rw [rpcDown_posted htracks, hcounted.ticks, threwInARow_append hended hlate]
    simp only [rpcDownAfter, Nat.succ_le_succ_iff]
  · rw [runsFailing_posted hsends, hcounted.sends]
    simp only [runsFailingAfter, Nat.succ_le_succ_iff]

/-- An outage whose post the webhook refuses, two passes in which the only send fails, and another
outage: its third pass is posted though the last post was just before, and if that pass completes
instead and fails to send again, the failing sends are posted. -/
theorem outages_are_reported_third :
    let settings : LoopSettings := { minBalance := 20000000, minStake := 1000 }
    let threw (now : ℤ) (accepted : Bool) : Pass :=
      { accounts := [], stake := none, upgrade := none, ended := .threw now accepted }
    let failing (now : ℤ) : Pass :=
      { accounts := [⟨⟨1⟩, some 5000, now, true⟩], stake := some ⟨true, 1050, now, true⟩
        upgrade := some (.read none now true), ended := .done 0 1 now true }
    let keeper := (passes settings).run (.new "https://hooks.example" 3600000)
      ([threw 5000 true, threw 10000 true, threw 15000 false, failing 20000, failing 25000] ++
        [threw 30000 true, threw 35000 true])
    ⟨.kind .rpcDown, 40000, true⟩ ∈ (passes settings).out keeper (threw 40000 true) ∧
      ⟨.kind .runsFailing, 40000, true⟩ ∈ (passes settings).out keeper (failing 40000) := by
  intro settings threw failing keeper
  have hurl : "https://hooks.example" ≠ "" := by decide
  have hended : ∀ last ∈
      [threw 5000 true, threw 10000 true, threw 15000 false, failing 20000, failing 25000].getLast?,
      last.threw = false := by
    intro last hlast
    cases hlast
    rfl
  have hlate : ∀ pass ∈ [threw 30000 true, threw 35000 true], pass.threw = true := by decide
  have houtage :=
    (outages_are_reported hurl settings 3600000 hended hlate (threw 40000 true) 40000 true).1
  have hsends :=
    (outages_are_reported hurl settings 3600000 hended hlate (failing 40000) 40000 true).2
  refine ⟨houtage.mpr ⟨rfl, Nat.le_refl 2, by decide⟩, hsends.mpr ⟨0, 1, rfl, rfl, ?_, by decide⟩⟩
  decide

end SoroCron.KeeperBot
