import RedisSemaphore.Dispatch.ClaimLock
import RedisSemaphore.Dispatch.Fifo
import RedisSemaphore.Dispatch.Scan

/-!
# A job requeued before admission

`_requeue` keeps the lead loop waiting: the job is neither admitted nor over until its hand-back has
executed, which makes its entry look idle for `reclaim_idle`, and `_reclaim_now` is set. Both are
used at the top of the lead loop only. A loop that has a batch in hand goes on with the batch, and
the scan the flag asks for begins at the oldest pending entry and reads one page.

So the job is first only where nothing else is in the way. `requeued_keeps_head` says what that is:
the rest of the batch and the pending entries before the job's have been started already, and the
page that `_reclaim` reads gets as far as the entry, or else `_backlog` does.
-/

namespace RedisSemaphore.Dispatch

open Redis Transition

variable {W : Type*} {π : Type}

/-! ## The claim and its condition -/

/-- The command is about the entry. -/
def Command.Names (id : ℕ) : Command W → Prop
  | .ack entry => entry = id
  | .del entry => entry = id
  | .finish _ entry => entry = id
  | .handBack entries => id ∈ entries
  | .touch entries => id ∈ entries
  | _ => False

/-- `w` leads, and the handler `t` of the entry has raised `RequeueJob` before it was admitted. -/
structure Requeued (w : W) (t id : ℕ) (s : World W) : Prop where
  leading : Leading w s
  delaying : ∃ task : Task W, (s.workers w).tasks[t]? = some task ∧ task.entry = id ∧
    task.admitted = false ∧ task.phase = .delaying

/-- A step before the job is run again: `w` goes on leading, no command fails, loses its reply, is
sent again or takes effect late, the handler that has raised is not admitted after that, and the job
is neither started nor dropped. -/
structure Meanwhile (w : W) (t id : ℕ) (s : World W) (e : Event W) (s' : World W) : Prop where
  leading : Leading w s'
  inTime : ∀ w' cmd, e ≠ .late w' cmd
  sentOnce : ∀ co cmd, e = .exec w co cmd → ¬ (s.workers w).Replied co
  answered : ∀ commands, e ≠ .act w (.lose commands)
  unadmitted : ∀ task : Task W, (s'.workers w).tasks[t]? = some task → task.admitted = false
  waits : e ≠ .act w (.start id)
  keeps : ∀ l, (s'.workers w).lead = some l → ¬ l.pc.Discards id

/-- Nothing is before the job when it is requeued: its entry is pending, and neither the rest of the
batch nor an older pending entry is still to be started. -/
structure Foremost (cfg : Config W π) (w : W) (id : ℕ) (S : ℕ → Prop) (s : World W) : Prop where
  stored : ∃ fields, ⟨id, fields⟩ ∈ s.server.stream.entries
  pending : id ∈ s.server.stream.pendingIds
  batch : ∀ l, (s.workers w).lead = some l → ∀ d ∈ l.pc.rest, Old cfg S d
  behind : Behind cfg S s.server.stream id

/-- A step in which no other worker sends a command about the entry, and the scans of the leader get
as far as the entry. -/
structure InReach [DecidableEq W] (cfg : Config W π) (w : W) (id : ℕ) (s : World W)
    (e : Event W) : Prop where
  apart : ∀ w' co cmd, e = .exec w' co cmd → w' ≠ w → ¬ cmd.Names id
  reclaimed : ∀ cmd l snapshot, e = .exec w .lead cmd → (s.workers w).lead = some l →
    l.pc = .claiming snapshot → Near cfg s.server id ∨ Bare cfg w snapshot s.server
  collected : ∀ cmd l snapshot, e = .exec w .lead cmd → (s.workers w).lead = some l →
    l.pc = .collecting snapshot → Listed w snapshot s.server id

/-! ## The invariant -/

/-- The entry can be reclaimed, and nothing older has to be started. -/
structure Ready (cfg : Config W π) (w : W) (S : ℕ → Prop) (id : ℕ) (server : Server W)
    (k : Worker W) : Prop where
  untouched : k.Untouched id
  aged : server.stream.Pends id (Aged cfg w server.now)
  behind : Behind cfg S server.stream id

/-- How far the requeue is. -/
inductive Stage (cfg : Config W π) (w : W) (S : ℕ → Prop) (id : ℕ) (server : Server W)
    (k : Worker W) (task : Task W) : Prop
  | delaying (hphase : task.phase = .delaying) (hpends : server.stream.Pends id fun _ => True)
      (hbehind : Behind cfg S server.stream id)
  | freed (hphase : task.phase = .handing false) (htaken : id ∉ k.taken)
      (hpends : server.stream.Pends id fun _ => True) (hbehind : Behind cfg S server.stream id)
  | handing (hphase : task.phase = .handing true) (huntouched : k.Untouched id)
      (hpends : server.stream.Pends id fun _ => True) (hbehind : Behind cfg S server.stream id)
      (haged : task.reply ≠ none → server.stream.Pends id (Aged cfg w server.now))
  | handed (hphase : task.phase = .ended false) (hready : Ready cfg w S id server k)
      (hnow : k.reclaimNow = true)
  | cancelled (hphase : task.phase = .ended true)

/-- Where the lead loop is: it waits for the requeue, goes through the rest of its batch, scans, or
has found the entry. -/
inductive Held (cfg : Config W π) (w : W) (S : ℕ → Prop) (t id : ℕ) (server : Server W)
    (k : Worker W) (l : Lead W) : Prop
  | waiting (task : Task W) (rest : List Delivery) (hpc : l.pc = .waiting t rest)
      (hrest : ∀ d ∈ rest, Old cfg S d) (htask : k.tasks[t]? = some task) (hentry : task.entry = id)
      (hadmitted : task.admitted = false) (hstage : Stage cfg w S id server k task)
  | due (hpc : l.pc = .top ∨ l.pc.Deals (fun ds => ∀ d ∈ ds, Old cfg S d) S id)
      (hdiscards : ¬ l.pc.Discards id) (hready : Ready cfg w S id server k)
      (hnow : k.reclaimNow = true)
  | seeking (hseeks : l.Seeks w id) (hready : Ready cfg w S id server k)
  | found (hfinds : l.Finds (Front cfg S id) S id)

/-- The invariant: `w` leads, has started nothing new, and has the job first. -/
structure Keeping (cfg : Config W π) (w : W) (S : ℕ → Prop) (t id : ℕ) (tr : List (Event W))
    (s : World W) : Prop where
  leading : Leading w s
  started : ∀ id' ∈ started tr, S id'
  held : ∃ l, (s.workers w).lead = some l ∧ Held cfg w S t id s.server (s.workers w) l

/-! ### The leader's worker -/

section Steps

variable {cfg : Config W π} {S : ℕ → Prop} {w : W} {t id : ℕ} {server : Server W}
  {k k' : Worker W} {l : Lead W} {task : Task W} {note : Note W}

/-- What does not touch the entry leaves it ready. -/
theorem Ready.congr (h : Ready cfg w S id server k) (huntouched : k'.Untouched id) :
    Ready cfg w S id server k' :=
  ⟨huntouched, h.aged, h.behind⟩

/-- The worker changes beside the lead loop and the requeue, and takes the entry up nowhere. -/
theorem Held.mono (h : Held cfg w S t id server k l) (htask : k'.tasks[t]? = k.tasks[t]?)
    (htaken : id ∉ k.taken → id ∉ k'.taken) (huntouched : k.Untouched id → k'.Untouched id)
    (hnow : k.reclaimNow = true → k'.reclaimNow = true) : Held cfg w S t id server k' l := by
  have hready (h : Ready cfg w S id server k) : Ready cfg w S id server k' :=
    h.congr (huntouched h.untouched)
  cases h with
  | waiting task rest hpc hrest hold hentry hadmitted hstage =>
    refine .waiting task rest hpc hrest (htask.trans hold) hentry hadmitted ?_
    cases hstage with
    | delaying hphase hpends hbehind => exact .delaying hphase hpends hbehind
    | freed hphase hfree hpends hbehind => exact .freed hphase (htaken hfree) hpends hbehind
    | handing hphase huntouched' hpends hbehind haged =>
      exact .handing hphase (huntouched huntouched') hpends hbehind haged
    | handed hphase hready' hnow' => exact .handed hphase (hready hready') (hnow hnow')
    | cancelled hphase => exact .cancelled hphase
  | due hpc hdiscards hready' hnow' => exact .due hpc hdiscards (hready hready') (hnow hnow')
  | seeking hseeks hready' => exact .seeking hseeks (hready hready')
  | found hfinds => exact .found hfinds

/-- A lead loop that goes on leading leaves a wait when the task has settled. -/
theorem LeadStep.of_waiting [DecidableEq W] {rest : List Delivery}
    (h : LeadStep cfg w k l note k') (hpc : l.pc = .waiting t rest) (hafter : k'.Leads)
    (hanswered : ∀ commands, note ≠ .lose commands) :
    note = .quiet ∧ k' = k.leadTo l (.batch rest) ∧
      ∃ task, k.tasks[t]? = some task ∧ task.Settled ∧ ¬ task.GoesBack := by
  cases h with
  | settled t' task rest' hpc' htask hsettled hstays =>
    obtain ⟨rfl, rfl⟩ := LeadPc.waiting.inj (hpc.symm.trans hpc')
    exact ⟨rfl, rfl, task, htask, hsettled, hstays⟩
  | cancelled | abandon | waitAbandoned => exact absurd hafter (Worker.not_leads_leadTo trivial)
  | waitCancelled => exact absurd hafter Worker.not_leads_exit
  | failed => exact absurd rfl (hanswered _)
  | _ => simp_all

/-- From the head of the loop, a reclaim from the beginning follows where one was asked for. -/
theorem LeadStep.of_top [DecidableEq W] (h : LeadStep cfg w k l note k') (hpc : l.pc = .top)
    (hnow : k.reclaimNow = true) (hafter : k'.Leads)
    (hanswered : ∀ commands, note ≠ .lose commands) :
    note = .quiet ∧ k' = { k with reclaimNow := false }.leadTo { l with cursor := 0 }
      (.timing k.taken) := by
  cases h with
  | reclaim hpc' hheld hgo => exact ⟨rfl, by rw [if_pos hnow]⟩
  | leave => exact absurd hafter Worker.not_leads_exit
  | failed => exact absurd rfl (hanswered _)
  | _ => simp_all

/-- **A segment of the lead loop keeps the job first.** -/
theorem Held.leadStep [DecidableEq W] (h : Held cfg w S t id server k l)
    (hstep : LeadStep cfg w k l note k') (hafter : k'.Leads)
    (hanswered : ∀ commands, note ≠ .lose commands) (hwaits : note ≠ .start id)
    (hkeeps : ∀ l', k'.lead = some l' → ¬ l'.pc.Discards id) :
    (∀ id', note.starts = some id' → S id') ∧
      ∃ l', k'.lead = some l' ∧ Held cfg w S t id server k' l' := by
  have hnone : ∀ id', (none : Option ℕ) = some id' → S id' := by
    intro id' hid'
    cases hid'
  cases h with
  | waiting task rest hpc hrest htask hentry hadmitted hstage =>
    obtain ⟨rfl, rfl, task', htask', hsettled, hstays⟩ :=
      hstep.of_waiting hpc hafter hanswered
    obtain rfl := Option.some.inj (htask.symm.trans htask')
    refine ⟨hnone, _, rfl, ?_⟩
    -- neither admitted nor going back, so the hand-back is done
    obtain ⟨cancelled, hended⟩ := hsettled.resolve_left (by simp [hadmitted])
    cases hstage with
    | delaying hphase => cases hphase.symm.trans hended
    | freed hphase => cases hphase.symm.trans hended
    | handing hphase => cases hphase.symm.trans hended
    | handed hphase hready hnow =>
      exact .due (Or.inr hrest) (fun h => h)
        (hready.congr ⟨hready.untouched.taken, hready.untouched.touch⟩) hnow
    | cancelled hphase => exact absurd ⟨hphase, hadmitted⟩ hstays
  | due hpc hdiscards hready hnow =>
    rcases hpc with htop | hdeals
    · obtain ⟨rfl, rfl⟩ := hstep.of_top htop hnow hafter hanswered
      refine ⟨hnone, _, rfl, .seeking ⟨hready.untouched.taken, rfl⟩ ?_⟩
      exact hready.congr ⟨hready.untouched.taken, hready.untouched.touch⟩
    · have hdealt := hstep.deals hdeals
        (fun d ds hall => Or.inr ⟨hall d List.mem_cons_self,
          fun d' hd' => hall d' (List.mem_cons_of_mem _ hd')⟩) hafter hanswered hwaits hkeeps
      obtain ⟨l', hl', hpc'⟩ := hdealt.lead
      refine ⟨hdealt.starts, l', hl', .due ?_ (hkeeps l' hl') ?_ (hdealt.reclaimNow.trans hnow)⟩
      · exact hpc'.elim Or.inr fun h => Or.inl h.2
      · exact hready.congr ⟨hdealt.taken hready.untouched.taken,
          hdealt.touch ▸ hready.untouched.touch⟩
  | seeking hseeks hready =>
    obtain ⟨hstarts, huntouched, l', hl', hseeks'⟩ :=
      hstep.seeks hseeks hready.untouched hanswered
    exact ⟨hstarts ▸ hnone, l', hl', .seeking hseeks' (hready.congr huntouched)⟩
  | found hfinds =>
    obtain ⟨hstarts, l', hl', hfinds'⟩ := hstep.finds hfinds hafter hanswered hwaits hkeeps
    exact ⟨hstarts, l', hl', .found hfinds'⟩

/-- A task takes nothing up, and takes no request for a reclaim back. -/
theorem TaskStep.calm (h : TaskStep k t task note k') :
    k'.taken ⊆ k.taken ∧ k'.touch = k.touch ∧ (k.reclaimNow = true → k'.reclaimNow = true) := by
  cases h with
  | finished | finishFailed | delayed => exact ⟨Finset.erase_subset _ _, rfl, id⟩
  | handed | handFailed => exact ⟨Finset.Subset.refl _, rfl, fun _ => rfl⟩
  | _ => exact ⟨Finset.Subset.refl _, rfl, id⟩

/-- **The requeue goes on.** The claim lock is what keeps a touch from following the hand-back. -/
theorem Stage.step (h : Stage cfg w S id server k task) (hlocks : k.Locks)
    (htask : k.tasks[t]? = some task) (hentry : task.entry = id)
    (hstep : TaskStep k t task note k') (hanswered : ∀ commands, note ≠ .lose commands)
    (hunadmitted : ∀ task' : Task W, k'.tasks[t]? = some task' → task'.admitted = false) :
    ∃ task', k'.tasks[t]? = some task' ∧ task'.entry = id ∧ Stage cfg w S id server k' task' := by
  have hlt : t < k.tasks.length := (List.getElem?_eq_some_iff.mp htask).1
  have hset {k₁ : Worker W} (htasks : k₁.tasks = k.tasks) (task' : Task W) :
      (k₁.setTask t task').tasks[t]? = some task' := by
    rw [Worker.setTask, htasks]
    exact List.getElem?_set_self hlt
  -- the task is at one stage, so a segment of another one does not apply
  cases hstep with
  | admits => cases hunadmitted _ (hset rfl _)
  | delayed hphase =>
    refine ⟨_, hset rfl _, hentry, ?_⟩
    cases h with
    | delaying _ hpends hbehind =>
      exact .freed rfl (hentry ▸ Finset.notMem_erase _ _) hpends hbehind
    | freed hphase' | handing hphase' | handed hphase' | cancelled hphase' =>
      cases hphase.symm.trans hphase'
  | delayCancelled hphase => exact ⟨_, hset rfl _, hentry, .cancelled rfl⟩
  | locked hphase hfree =>
    refine ⟨_, hset rfl _, hentry, ?_⟩
    cases h with
    | freed _ htaken hpends hbehind =>
      refine .handing rfl ⟨htaken, ?_⟩ hpends hbehind fun hreply => absurd rfl hreply
      -- a touch in flight would hold the lock that the task has just taken
      intro entries reply hclaiming
      have hlocked := hlocks.locked .touch ⟨entries, reply, hclaiming⟩
      exact absurd (hfree.symm.trans hlocked) (by simp)
    | delaying hphase' | handing hphase' | handed hphase' | cancelled hphase' =>
      cases hphase.symm.trans hphase'
  | handed r hphase hreply =>
    refine ⟨_, hset rfl _, hentry, ?_⟩
    cases h with
    | handing _ huntouched _ hbehind haged =>
      refine .handed rfl ⟨⟨huntouched.taken, huntouched.touch⟩, ?_, hbehind⟩ rfl
      exact haged (by simp [hreply])
    | delaying hphase' | freed hphase' | handed hphase' | cancelled hphase' =>
      cases hphase.symm.trans hphase'
  | finishFailed | handFailed | handCancelled => exact absurd rfl (hanswered _)
  | finish hphase | requeue hphase | handlerRaised _ hphase | finished _ hphase =>
    cases h with
    | delaying hphase' | freed hphase' | handing hphase' | handed hphase' | cancelled hphase' =>
      cases hphase.symm.trans hphase'

/-- Other tasks leave the requeue alone, and its own goes through delay, lock and `XCLAIM` in this
order. -/
theorem Held.taskStep {t₁ : ℕ} (h : Held cfg w S t id server k l) (hlocks : k.Locks)
    (htask : k.tasks[t₁]? = some task) (hstep : TaskStep k t₁ task note k')
    (hanswered : ∀ commands, note ≠ .lose commands)
    (hunadmitted : ∀ task' : Task W, k'.tasks[t]? = some task' → task'.admitted = false) :
    Held cfg w S t id server k' l := by
  obtain ⟨htaken, htouch, hnow⟩ := hstep.calm
  have hfree : id ∉ k.taken → id ∉ k'.taken := fun hid hmem => hid (htaken hmem)
  have huntouched (h : k.Untouched id) : k'.Untouched id := ⟨hfree h.taken, htouch ▸ h.touch⟩
  by_cases heq : t₁ = t
  · subst heq
    cases h with
    | waiting task₀ rest hpc hrest htask₀ hentry hadmitted hstage =>
      obtain rfl := Option.some.inj (htask.symm.trans htask₀)
      obtain ⟨task', htask', hentry', hstage'⟩ :=
        hstage.step hlocks htask hentry hstep hanswered hunadmitted
      exact .waiting task' rest hpc hrest htask' hentry' (hunadmitted task' htask') hstage'
    | due hpc hdiscards hready hnow' =>
      exact .due hpc hdiscards (hready.congr (huntouched hready.untouched)) (hnow hnow')
    | seeking hseeks hready =>
      exact .seeking hseeks (hready.congr (huntouched hready.untouched))
    | found hfinds => exact .found hfinds
  · obtain ⟨task', htasks, -⟩ := hstep.frame.tasks
    refine h.mono ?_ hfree huntouched hnow
    rw [htasks, List.getElem?_set_ne heq]

/-- A touch renews only what is taken, which the entry is not. -/
theorem Held.touchStep (h : Held cfg w S t id server k l) (hstep : TouchStep k note k') :
    Held cfg w S t id server k' l := by
  cases hstep with
  | locked hlocking hfree hsome =>
    refine h.mono rfl (fun hid => hid) (fun h => ⟨h.taken, ?_⟩) (fun hnow => hnow)
    intro entries reply hclaiming
    obtain ⟨rfl, -⟩ := Touch.claiming.inj hclaiming
    exact h.taken
  | _ =>
    refine h.mono rfl (fun hid => hid) (fun h => ⟨h.taken, ?_⟩) (fun hnow => hnow)
    intro entries reply hclaiming
    cases hclaiming

end Steps

/-! ### Commands -/

section Commands

variable {cfg : Config W π} {S : ℕ → Prop} {w : W} {t id : ℕ} {server server' : Server W}
  {k : Worker W} {l : Lead W} {co : Co} {cmd : Command W}

/-- The server changes, and the entry keeps its place. -/
theorem Held.serve (h : Held cfg w S t id server k l)
    (hpends : server.stream.Pends id (fun _ => True) → server'.stream.Pends id fun _ => True)
    (haged : k.Untouched id → server.stream.Pends id (Aged cfg w server.now) →
      server'.stream.Pends id (Aged cfg w server'.now))
    (hbehind : id ∈ server.stream.pendingIds → Behind cfg S server.stream id →
      Behind cfg S server'.stream id) : Held cfg w S t id server' k l := by
  have hready (h : Ready cfg w S id server k) : Ready cfg w S id server' k :=
    ⟨h.untouched, haged h.untouched h.aged, hbehind h.aged.mem_pendingIds h.behind⟩
  cases h with
  | waiting task rest hpc hrest htask hentry hadmitted hstage =>
    refine .waiting task rest hpc hrest htask hentry hadmitted ?_
    cases hstage with
    | delaying hphase h hold =>
      exact .delaying hphase (hpends h) (hbehind h.mem_pendingIds hold)
    | freed hphase hfree h hold =>
      exact .freed hphase hfree (hpends h) (hbehind h.mem_pendingIds hold)
    | handing hphase huntouched h hold haged' =>
      exact .handing hphase huntouched (hpends h) (hbehind h.mem_pendingIds hold)
        fun hreply => haged huntouched (haged' hreply)
    | handed hphase h hnow => exact .handed hphase (hready h) hnow
    | cancelled hphase => exact .cancelled hphase
  | due hpc hdiscards h hnow => exact .due hpc hdiscards (hready h) hnow
  | seeking hseeks h => exact .seeking hseeks (hready h)
  | found hfinds => exact .found hfinds

/-- The touch loop sends the touches. -/
theorem Worker.touch_of_command {entries : Finset ℕ}
    (hcmd : k.command co = some (.touch entries)) : ∃ reply, k.touch = .claiming entries reply := by
  cases co with
  | run =>
    rw [Worker.command] at hcmd
    split at hcmd <;> cases hcmd
  | lead =>
    obtain ⟨l, -, hl⟩ := Option.bind_eq_some_iff.mp hcmd
    unfold Lead.command at hl
    split at hl <;> cases hl
  | task t =>
    obtain ⟨task, -, htask⟩ := Option.bind_eq_some_iff.mp hcmd
    rcases Task.command_eq htask with heq | heq <;> cases heq
  | touch =>
    rw [Worker.command] at hcmd
    split at hcmd
    · rename_i entries' reply hclaiming
      obtain rfl := Command.touch.inj (Option.some.inj hcmd)
      exact ⟨reply, hclaiming⟩
    · cases hcmd

/-- While the job waits to be run again its worker finishes it nowhere. -/
theorem Held.of_finish {done : Set ℕ} {d : ℕ} {jobId : String}
    (h : Held cfg w S t id server k l) (honce : k.Once done d)
    (hcmd : k.command co = some (.finish jobId id)) : Held cfg w S t id server' k l := by
  obtain ⟨-, t₁, task₁, htask₁, hentry₁, hphase₁⟩ := Worker.finishing_of_command hcmd
  have hworking : task₁.Working := Or.inr (Or.inl hphase₁)
  have hfree {p : Prop} (hid : id ∉ k.taken) : p :=
    absurd (honce.taken id ⟨t₁, task₁, htask₁, hentry₁, hworking⟩) hid
  cases h with
  | waiting task rest hpc hrest htask hentry hadmitted hstage =>
    cases hstage with
    | delaying hphase =>
      obtain rfl := honce.unique t t₁ task task₁ htask htask₁ (Or.inr (Or.inr hphase)) hworking
        (hentry₁.trans hentry.symm)
      obtain rfl := Option.some.inj (htask.symm.trans htask₁)
      cases hphase.symm.trans hphase₁
    | freed hphase hid => exact hfree hid
    | handing hphase huntouched => exact hfree huntouched.taken
    | handed hphase hready => exact hfree hready.untouched.taken
    | cancelled hphase =>
      exact .waiting task rest hpc hrest htask hentry hadmitted (.cancelled hphase)
  | due hpc hdiscards hready => exact hfree hready.untouched.taken
  | seeking hseeks hready => exact hfree hready.untouched.taken
  | found hfinds => exact .found hfinds

variable [DecidableEq W]

/-- An `XCLAIM` of `_hand_back` leaves the entry aged. -/
theorem aged_handBack {entries : Finset ℕ} (h : server.stream.Pends id fun _ => True)
    (hid : id ∈ entries) :
    (exec cfg w server (.handBack entries)).1.stream.Pends id (Aged cfg w server.now) := by
  refine h.claim (fun hnot => absurd hid hnot) fun _ => ⟨rfl, ?_⟩
  show (cfg.reclaimIdle : ℤ) ≤ server.now - (server.now - cfg.reclaimIdle)
  omega

omit [DecidableEq W] in
/-- Beside the lead loop, a command that is not about the entry leaves it. -/
theorem Worker.leaves_of_not_names {now : ℤ} {P : PendingEntry W → Prop}
    (hnames : ¬ cmd.Names id) (hco : co ≠ .lead) (hcmd : k.command co = some cmd) :
    cmd.Leaves cfg w now id P := by
  rcases Worker.command_cases hco hcmd with
    ⟨mutex, rfl⟩ | ⟨jobId, id', rfl⟩ | ⟨ids, rfl⟩ | ⟨ids, rfl⟩
  · trivial
  · exact hnames
  · exact fun hid => absurd hid hnames
  · exact fun hid => absurd hid hnames

/-- A command of another worker. -/
theorem Held.execElsewhere {w' : W} {k' : Worker W} (h : Held cfg w S t id server k l)
    (hnames : ¬ cmd.Names id) (hco : co ≠ .lead) (hcmd : k'.command co = some cmd) :
    Held cfg w S t id (exec cfg w' server cmd).1 k l := by
  refine h.serve ?_ ?_ ?_
  · exact fun hpends => pends_exec hpends (Worker.leaves_of_not_names hnames hco hcmd)
  · intro _ hpends
    rw [now_exec]
    exact pends_exec hpends (Worker.leaves_of_not_names hnames hco hcmd)
  · exact fun hid hbehind => hbehind.advances (advances_exec cmd) hid

/-- A command of another coroutine of the leader's worker. -/
theorem Held.execBeside {d : ℕ} (h : Held cfg w S t id server k l) (honce : k.Once ∅ d)
    (hco : co ≠ .lead) (hcmd : k.command co = some cmd) :
    Held cfg w S t id (exec cfg w server cmd).1 k l := by
  by_cases hfinish : ∃ jobId, cmd = .finish jobId id
  · obtain ⟨jobId, rfl⟩ := hfinish
    exact h.of_finish honce hcmd
  · have hleaves {P : PendingEntry W → Prop}
        (hback : P ⟨id, w, server.now - cfg.reclaimIdle⟩)
        (htouch : ∀ entries, cmd = .touch entries → id ∈ entries → P ⟨id, w, server.now⟩) :
        cmd.Leaves cfg w server.now id P := by
      rcases Worker.command_cases hco hcmd with
        ⟨mutex, rfl⟩ | ⟨jobId, id', rfl⟩ | ⟨ids, rfl⟩ | ⟨ids, rfl⟩
      · trivial
      · rintro rfl
        exact hfinish ⟨jobId, rfl⟩
      · exact fun _ => hback
      · exact htouch ids rfl
    refine h.serve ?_ ?_ ?_
    · exact fun hpends => pends_exec hpends (hleaves trivial fun _ _ _ => trivial)
    · intro huntouched hpends
      rw [now_exec]
      refine pends_exec hpends (hleaves ⟨rfl, ?_⟩ ?_)
      · show (cfg.reclaimIdle : ℤ) ≤ server.now - (server.now - cfg.reclaimIdle)
        omega
      · rintro entries rfl hid
        obtain ⟨reply, hclaiming⟩ := Worker.touch_of_command hcmd
        exact absurd hid (huntouched.touch entries reply hclaiming)
    · exact fun hid hbehind => hbehind.advances (advances_exec cmd) hid

omit [DecidableEq W] in
/-- A reply to another coroutine; the requeue gets one when the entry is aged. -/
theorem Held.replied {r : Reply W} (h : Held cfg w S t id server k l) (hco : co ≠ .lead)
    (haged : ∀ task : Task W, co = .task t → k.tasks[t]? = some task → task.entry = id →
      task.phase = .handing true → server.stream.Pends id (Aged cfg w server.now)) :
    Held cfg w S t id server (k.answer r co) l := by
  have htaken : id ∉ k.taken → id ∉ (k.answer r co).taken := by
    rw [Worker.answer_taken]
    exact fun hid => hid
  have huntouched (h : k.Untouched id) : (k.answer r co).Untouched id := by
    refine ⟨htaken h.taken, fun entries reply hclaiming => ?_⟩
    obtain ⟨reply', hold⟩ := Worker.touch_of_answer hclaiming
    exact h.touch entries reply' hold
  have hnow : (k.answer r co).reclaimNow = k.reclaimNow := by
    cases co with
    | lead | task => rfl
    | run | touch =>
      rw [Worker.answer]
      split <;> rfl
  -- the reply to the hand-back itself, and one to another coroutine
  by_cases hown : co = .task t
  · subst hown
    cases h with
    | waiting task rest hpc hrest htask hentry hadmitted hstage =>
      have htask' : (k.answer r (.task t)).tasks[t]? = some { task with reply := some r } := by
        simp [Worker.answer, htask]
      refine .waiting _ rest hpc hrest htask' hentry hadmitted ?_
      cases hstage with
      | delaying hphase hpends hbehind => exact .delaying hphase hpends hbehind
      | freed hphase hfree hpends hbehind => exact .freed hphase (htaken hfree) hpends hbehind
      | handing hphase huntouched' hpends hbehind _ =>
        exact .handing hphase (huntouched huntouched') hpends hbehind
          fun _ => haged task rfl htask hentry hphase
      | handed hphase hready hnow' =>
        exact .handed hphase (hready.congr (huntouched hready.untouched)) hnow'
      | cancelled hphase => exact .cancelled hphase
    | due hpc hdiscards hready hnow' =>
      exact .due hpc hdiscards (hready.congr (huntouched hready.untouched)) hnow'
    | seeking hseeks hready =>
      exact .seeking hseeks (hready.congr (huntouched hready.untouched))
    | found hfinds => exact .found hfinds
  · refine h.mono ?_ htaken huntouched fun h => hnow.trans h
    cases co with
    | lead => exact absurd rfl hco
    | task t₁ =>
      have hne : t₁ ≠ t := fun heq => hown (heq ▸ rfl)
      simp [Worker.answer, hne]
    | run | touch =>
      rw [Worker.answer]
      split <;> rfl

omit [DecidableEq W] in
/-- Until the entry has been found it is pending, unless the requeue was cancelled. -/
theorem Held.pends {task : Task W} (h : Held cfg w S t id server k l)
    (htask : k.tasks[t]? = some task) (hphase : task.phase ≠ .ended true) :
    l.Finds (Front cfg S id) S id ∨ server.stream.Pends id fun _ => True := by
  cases h with
  | waiting task' rest hpc hrest htask' hentry hadmitted hstage =>
    obtain rfl := Option.some.inj (htask.symm.trans htask')
    cases hstage with
    | delaying _ hpends => exact Or.inr hpends
    | freed _ _ hpends => exact Or.inr hpends
    | handing _ _ hpends => exact Or.inr hpends
    | handed _ hready => exact Or.inr (hready.aged.mono fun _ _ => trivial)
    | cancelled hphase' => exact absurd hphase' hphase
  | due hpc hdiscards hready => exact Or.inr (hready.aged.mono fun _ _ => trivial)
  | seeking hseeks hready => exact Or.inr (hready.aged.mono fun _ _ => trivial)
  | found hfinds => exact Or.inl hfinds

/-- A command of another coroutine of the leader's worker executes. -/
theorem Held.answerBeside {d : ℕ} (h : Held cfg w S t id server k l) (honce : k.Once ∅ d)
    (hco : co ≠ .lead) (hcmd : k.command co = some cmd) :
    Held cfg w S t id (exec cfg w server cmd).1 (k.answer (exec cfg w server cmd).2 co) l := by
  by_cases hfinds : l.Finds (Front cfg S id) S id
  · exact .found hfinds
  · refine (h.execBeside honce hco hcmd).replied hco ?_
    rintro task rfl htask rfl hphase
    have hpends := (h.pends htask (by simp [hphase])).resolve_left hfinds
    have hsent : task.command = some cmd := by
      rw [Worker.command, htask] at hcmd
      exact hcmd
    rw [Task.command, hphase] at hsent
    obtain rfl := Option.some.inj hsent
    rw [now_exec]
    exact aged_handBack hpends (Finset.mem_singleton_self _)

/-- The entry stays ready while the lead loop is answered, if its place survives the command. -/
theorem Ready.answerLead (h : Ready cfg w S id server k)
    (hpends : (exec cfg w server cmd).1.stream.Pends id (Aged cfg w server.now)) :
    Ready cfg w S id (exec cfg w server cmd).1 (k.answer (exec cfg w server cmd).2 .lead) := by
  refine ⟨⟨h.untouched.taken, h.untouched.touch⟩, ?_, ?_⟩
  · rw [now_exec]
    exact hpends
  · exact h.behind.advances (advances_exec cmd) h.aged.mem_pendingIds

omit [DecidableEq W] in
/-- A loop in a batch sends the two commands of a drop only, and drops another entry. -/
theorem LeadPc.Deals.leaves {Q : List Delivery → Prop} {P : PendingEntry W → Prop} {now : ℤ}
    (hdeals : l.pc.Deals Q S id) (hdiscards : ¬ l.pc.Discards id) (hcmd : l.command = some cmd) :
    cmd.Leaves cfg w now id P := by
  cases hpc : l.pc with
  | acking entry thenDel rest =>
    rw [Lead.command, hpc] at hcmd
    obtain rfl := Option.some.inj hcmd
    exact fun heq => hdiscards (hpc ▸ heq)
  | deleting entry rest =>
    rw [Lead.command, hpc] at hcmd
    obtain rfl := Option.some.inj hcmd
    exact fun heq => hdiscards (hpc ▸ heq)
  | batch | waiting | capping =>
    rw [Lead.command, hpc] at hcmd
    cases hcmd
  | _ =>
    rw [hpc] at hdeals
    exact hdeals.elim

/-- A scan finds the entry, or goes on. The page and the backlog are the two commands that may find
it; those around them leave it in its place. -/
theorem Held.answerSeeking (hseeks : l.Seeks w id) (h : Ready cfg w S id server k)
    (hcmd : l.command = some cmd)
    (hreclaimed : ∀ snapshot, l.pc = .claiming snapshot →
      Near cfg server id ∨ Bare cfg w snapshot server)
    (hcollected : ∀ snapshot, l.pc = .collecting snapshot → Listed w snapshot server id) :
    Held cfg w S t id (exec cfg w server cmd).1 (k.answer (exec cfg w server cmd).2 .lead)
      { l with reply := some (exec cfg w server cmd).2 } := by
  cases hpc : l.pc with
  | timing snapshot =>
    rw [Lead.command, hpc] at hcmd
    obtain rfl := Option.some.inj hcmd
    refine .seeking ?_ (h.answerLead h.aged)
    simpa only [Lead.Seeks, hpc] using hseeks
  | claiming snapshot =>
    simp only [Lead.Seeks, hpc] at hseeks
    obtain ⟨hid, hcursor, -⟩ := hseeks
    rw [Lead.command, hpc, hcursor] at hcmd
    obtain rfl := Option.some.inj hcmd
    obtain ⟨es, cursor, heq, hfront | ⟨hnil, hpends⟩⟩ :=
      reclaim_exec h.aged h.behind hid (hreclaimed snapshot hpc)
    · exact .found ⟨es, cursor, congrArg some heq, hfront⟩
    · refine .seeking ⟨hid, hcursor, fun r hr => ⟨es, cursor, ?_, hnil⟩⟩ (h.answerLead hpends)
      rw [← Option.some.inj hr, heq]
  | inspecting found =>
    rw [Lead.command, hpc] at hcmd
    obtain rfl := Option.some.inj hcmd
    refine .seeking ?_ (h.answerLead (pends_exec h.aged trivial))
    simpa only [Lead.Seeks, hpc] using hseeks
  | pruning dead found =>
    cases dead with
    | nil =>
      rw [Lead.command, hpc] at hcmd
      cases hcmd
    | cons name dead =>
      rw [Lead.command, hpc] at hcmd
      obtain rfl := Option.some.inj hcmd
      simp only [Lead.Seeks, hpc] at hseeks
      -- a dead consumer is another one than the worker, which has the entry
      refine .seeking ?_ (h.answerLead (pends_exec h.aged fun p hp heq => ?_))
      · simpa only [Lead.Seeks, hpc] using hseeks
      · exact hseeks.2 (hp.1.symm.trans heq ▸ List.mem_cons_self)
  | collecting snapshot =>
    simp only [Lead.Seeks, hpc] at hseeks
    rw [Lead.command, hpc] at hcmd
    obtain rfl := Option.some.inj hcmd
    obtain ⟨es, heq, hfront⟩ := backlog_exec h.aged h.behind hseeks.1 (hcollected snapshot hpc)
    exact .found ⟨es, congrArg some heq, hfront⟩
  | _ => simp only [Lead.Seeks, hpc] at hseeks

omit [DecidableEq W] in
/-- What was found stays found: the page and the backlog have been answered already. -/
theorem Lead.Finds.answered {Q : List Delivery → Prop} {r : Reply W} (h : l.Finds Q S id)
    (hreply : l.reply = none) : Lead.Finds Q S id { l with reply := some r } := by
  unfold Lead.Finds at h ⊢
  split at h
  · obtain ⟨es, cursor, heq, -⟩ := h
    exact absurd (hreply.symm.trans heq) (by simp)
  · obtain ⟨es, heq, -⟩ := h
    exact absurd (hreply.symm.trans heq) (by simp)
  · simp_all
  · simp_all
  · simp_all

/-- **A command of the lead loop executes.** The scans find the entry, as far as they get. -/
theorem Held.answerLead (h : Held cfg w S t id server k l) (hreply : l.reply = none)
    (hcmd : l.command = some cmd)
    (hreclaimed : ∀ snapshot, l.pc = .claiming snapshot →
      Near cfg server id ∨ Bare cfg w snapshot server)
    (hcollected : ∀ snapshot, l.pc = .collecting snapshot → Listed w snapshot server id) :
    Held cfg w S t id (exec cfg w server cmd).1 (k.answer (exec cfg w server cmd).2 .lead)
      { l with reply := some (exec cfg w server cmd).2 } := by
  cases h with
  | waiting task rest hpc =>
    rw [Lead.command, hpc] at hcmd
    cases hcmd
  | due hpc hdiscards h hnow =>
    have hleaves : cmd.Leaves cfg w server.now id (Aged cfg w server.now) := by
      rcases hpc with htop | hdeals
      · rw [Lead.command, htop] at hcmd
        cases hcmd
      · exact hdeals.leaves hdiscards hcmd
    exact .due hpc hdiscards (h.answerLead (pends_exec h.aged hleaves)) hnow
  | seeking hseeks h => exact .answerSeeking hseeks h hcmd hreclaimed hcollected
  | found hfinds => exact .found (hfinds.answered hreply)

end Commands

/-! ## Runs -/

section Run

variable [DecidableEq W] {cfg : Config W π} {S : ℕ → Prop} {w : W} {t id : ℕ}
  {tr tr₀ : List (Event W)} {s s₀ s' : World W} {e : Event W}

omit [DecidableEq W] in
/-- At the moment of the exception the job is first. -/
theorem Requeued.keeping (h : Requeued w t id s₀) (hserial : Serial cfg w (s₀.workers w))
    (hfirst : Foremost cfg w id S s₀) : Keeping cfg w S t id [] s₀ := by
  obtain ⟨task, htask, hentry, hadmitted, hphase⟩ := h.delaying
  obtain ⟨hgoing, l, hl, hheld, hstays⟩ := h.leading.leads
  have hopen : task.Open := by
    refine ⟨hadmitted, ?_⟩
    rintro ⟨cancelled, hended⟩
    cases hphase.symm.trans hended
  obtain ⟨l', hl', hwatches⟩ := hserial.watched t task htask hopen
  obtain rfl := Option.some.inj (hl.symm.trans hl')
  -- a loop that goes on leading watches the task in its wait
  obtain ⟨rest, hpc⟩ : ∃ rest, l.pc = .waiting t rest := by
    cases hpc : l.pc with
    | waiting t' rest =>
      rw [hpc] at hwatches
      obtain rfl : t' = t := hwatches
      exact ⟨rest, rfl⟩
    | abandoning | unwinding => exact absurd (hpc ▸ trivial) hstays
    | _ =>
      rw [hpc] at hwatches
      exact hwatches.elim
  obtain ⟨fields, hstored⟩ := hfirst.stored
  refine ⟨h.leading, fun id' hid' => absurd hid' List.not_mem_nil, l, hl, ?_⟩
  refine .waiting task rest hpc ?_ htask hentry hadmitted ?_
  · have hbatch := hfirst.batch l hl
    rw [hpc] at hbatch
    exact hbatch
  · exact .delaying hphase (StreamKey.pends_of_mem hstored hfirst.pending) hfirst.behind

/-- **Every step before the job is run again keeps it first.** -/
theorem Keeping.step (h : Keeping cfg w S t id tr s) (hserial : Serial cfg w (s.workers w))
    (honce : OnceAt w ∅ s) (hlocks : (s.workers w).Locks) (hmean : Meanwhile w t id s e s')
    (hreach : InReach cfg w id s e) (hstep : Step cfg s e s') :
    Keeping cfg w S t id (e :: tr) s' := by
  obtain ⟨hleading, hstarted, l, hl, hheld⟩ := h
  suffices hnext : (∀ id', e.starts = some id' → S id') ∧
      ∃ l', (s'.workers w).lead = some l' ∧ Held cfg w S t id s'.server (s'.workers w) l' by
    refine ⟨hmean.leading, fun id' hid' => ?_, hnext.2⟩
    rw [started_cons] at hid'
    rcases List.mem_append.mp hid' with hnew | hold
    · exact hnext.1 id' (Option.mem_toList.mp hnew)
    · exact hstarted id' hold
  have hnone : ∀ id', (none : Option ℕ) = some id' → S id' := by
    intro id' hid'
    cases hid'
  cases hstep with
  | append id' fields hnew =>
    exact ⟨hnone, l, hl,
      hheld.serve (fun h => h.add hnew) (fun _ h => h.add hnew) (fun _ h => h.add hnew)⟩
  | advance now hnow =>
    refine ⟨hnone, l, hl, hheld.serve (fun h => h) (fun _ h => h.mono fun p hp => ?_)
      (fun _ h => h)⟩
    refine ⟨hp.1, hp.2.trans ?_⟩
    show s.server.now - p.since ≤ now - p.since
    omega
  | expire => exact ⟨hnone, l, hl, hheld.serve (fun h => h) (fun _ h => h) (fun _ h => h)⟩
  | late w' cmd hstray => exact absurd rfl (hmean.inTime w' cmd)
  | exec w' co cmd hcmd =>
    refine ⟨hnone, ?_⟩
    by_cases heq : w = w'
    · subst heq
      simp only [Function.update_self]
      -- a command of the leader: of its loop, or of another coroutine beside it
      by_cases hco : co = .lead
      · subst hco
        have hreply := Worker.reply_eq_none hl (hmean.sentOnce .lead cmd rfl)
        have hsent := (Worker.command_lead hl).symm.trans hcmd
        refine ⟨_, Worker.lead_answer hl, hheld.answerLead hreply hsent ?_ ?_⟩
        · exact fun snapshot hpc => hreach.reclaimed cmd l snapshot rfl hl hpc
        · exact fun snapshot hpc => hreach.collected cmd l snapshot rfl hl hpc
      · refine ⟨l, ?_, hheld.answerBeside honce.worker hco hcmd⟩
        rw [← hl]
        exact Worker.answer_lead hco
    -- another worker does not lead, so its commands scan nothing
    · have hco := Worker.co_ne_lead (hleading.alone w' (Ne.symm heq)) hcmd
      simp only [Function.update_of_ne heq]
      exact ⟨l, hl, hheld.execElsewhere (hreach.apart w' co cmd rfl (Ne.symm heq)) hco hcmd⟩
  | act w' note k halive hlocal =>
    by_cases heq : w = w'
    · subst heq
      have hafter := hmean.leading.leads
      have hunadmitted := hmean.unadmitted
      have hkeeps := hmean.keeps
      simp only [Function.update_self] at hafter hunadmitted hkeeps ⊢
      have hanswered : ∀ commands, note ≠ .lose commands := by
        rintro commands rfl
        exact hmean.answered commands rfl
      have hwaits : note ≠ .start id := by
        rintro rfl
        exact hmean.waits rfl
      cases hlocal with
      | lead hlead hlocal =>
        obtain rfl := Option.some.inj (hl.symm.trans hlead)
        exact hheld.leadStep hlocal hafter hanswered hwaits hkeeps
      | task htask hlocal =>
        refine ⟨?_, l, hlocal.frame.lead.trans hl,
          hheld.taskStep hlocks htask hlocal hanswered hunadmitted⟩
        cases hlocal <;> exact hnone
      | run hlocal => exact (hleading.leads.runStep hserial hafter hlocal).elim
      | touch hlocal =>
        refine ⟨?_, l, ?_, hheld.touchStep hlocal⟩
        · cases hlocal <;> exact hnone
        · cases hlocal <;> exact hl
    · simp only [Function.update_of_ne heq]
      refine ⟨?_, l, hl, hheld⟩
      show ∀ id', note.starts = some id' → S id'
      rw [hlocal.starts_eq_none (hleading.alone w' (Ne.symm heq))]
      exact hnone
  | crash w' =>
    have heq := hmean.leading.ne_of_crash
    simp only [Function.update_of_ne heq]
    exact ⟨hnone, l, hl, hheld⟩

/-- **A job requeued before admission is run first, where nothing is before it.** From the moment
its handler raises `RequeueJob` until it is run again, only entries are started that had been
started before, as long as `w` leads and no command fails. -/
theorem requeued_keeps_head (h₀ : (system cfg).Run tr₀ s₀) (hrequeued : Requeued w t id s₀)
    (hfirst : Foremost cfg w id (· ∈ started tr₀) s₀)
    (h : ((system cfg).within fun s e s' => Meanwhile w t id s e s' ∧ InReach cfg w id s e).Path
      s₀ tr s) : ∀ id' ∈ started tr, id' ∈ started tr₀ := by
  have hkeeping : Keeping cfg w (· ∈ started tr₀) t id tr s := by
    refine System.Path.invariant (I := fun tr s => Keeping cfg w (· ∈ started tr₀) t id tr s)
      (hrequeued.keeping (serial_of_run h₀ w) hfirst) ?_ h
    rintro tr s e s' hpath hkeeping ⟨⟨hmean, hreach⟩, hstep⟩
    have hrun : (system cfg).Run (tr ++ tr₀) s := h₀.append hpath.of_within
    exact hkeeping.step (serial_of_run hrun w) (onceAt_of_run hrun) (locks_of_run hrun w) hmean
      hreach hstep
  exact hkeeping.started

end Run

/-! ### Two runs -/

section Lone

variable {s s' : World Unit} {e : Event Unit}

/-- What is left of a step of a single worker. -/
theorem meanwhile_lone (hlate : ∀ w' cmd, e ≠ .late w' cmd)
    (hsent : ∀ co cmd, e = .exec () co cmd → ¬ (s.workers ()).Replied co)
    (hanswered : ∀ commands, e ≠ .act () (.lose commands)) (hwaits : e ≠ .act () (.start 1))
    (hleads : (s'.workers ()).Leads)
    (htask : ∀ task : Task Unit, (s'.workers ()).tasks[0]? = some task → task.admitted = false)
    (hkeeps : ∀ l, (s'.workers ()).lead = some l → ¬ l.pc.Discards 1) :
    Meanwhile () 0 1 s e s' :=
  ⟨⟨hleads, fun w' hne => absurd (Subsingleton.elim w' ()) hne⟩, hlate, hsent, hanswered, htask,
    hwaits, hkeeps⟩

/-- A segment of the worker, with nothing but the requeue under way. -/
theorem meanwhile_act {note : Note Unit} (hanswered : ∀ commands, note ≠ .lose commands)
    (hwaits : note ≠ .start 1) (hleads : (s'.workers ()).Leads)
    (htask : ∀ task : Task Unit, (s'.workers ()).tasks[0]? = some task → task.admitted = false)
    (hkeeps : ∀ l, (s'.workers ()).lead = some l → ¬ l.pc.Discards 1) :
    Meanwhile () 0 1 s (.act () note) s' := by
  refine meanwhile_lone (by simp) (by simp) ?_ ?_ hleads htask hkeeps
  · intro commands heq
    exact hanswered commands (Event.act.inj heq).2
  · intro heq
    exact hwaits (Event.act.inj heq).2

/-- A command that executes in time. -/
theorem meanwhile_exec {co : Co} {cmd : Command Unit} (hsent : ¬ (s.workers ()).Replied co)
    (hleads : (s'.workers ()).Leads)
    (htask : ∀ task : Task Unit, (s'.workers ()).tasks[0]? = some task → task.admitted = false)
    (hkeeps : ∀ l, (s'.workers ()).lead = some l → ¬ l.pc.Discards 1) :
    Meanwhile () 0 1 s (.exec () co cmd) s' := by
  refine meanwhile_lone (by simp) ?_ (by simp) (by simp) hleads htask hkeeps
  intro co' cmd' heq
  obtain ⟨-, rfl, -⟩ := Event.exec.inj heq
  exact hsent

/-- The oldest pending entry is in reach. -/
theorem inReach_lone (hbefore : s.server.stream.pendingBefore 1 = []) : InReach lone () 1 s e := by
  refine ⟨fun w' _ _ _ hne => absurd (Subsingleton.elim w' ()) hne, ?_, ?_⟩
  · intro cmd l snapshot _ _ _
    left
    simp [Near, hbefore]
  · intro cmd l snapshot _ _ _
    simp [Listed, hbefore]

end Lone

/-- The leader has read entry `1` and started it; its handler has raised. -/
def requeuedAlone : List (Event Unit) :=
  [.act () .quiet, .act () (.start 1), .act () .quiet, .exec () .lead .readNew, .act () .quiet,
    .act () .quiet, .exec () .lead .ensureGroup, .append 2 ping, .append 1 ping, .act () .quiet,
    .exec () .run (.acquire 0), .act () .quiet]

/-- The entry is handed back, and the next reclaim finds it. -/
def handsBack : List (Event Unit) :=
  [.act () .quiet, .exec () .lead (.autoclaim 0), .act () .quiet, .exec () .lead .time,
    .act () .quiet, .act () .quiet, .act () .quiet, .act () .quiet,
    .exec () (.task 0) (.handBack {1}), .act () .quiet, .act () .quiet]

/-- A worker alone with two jobs, of which the first asks for a requeue: nothing else starts before
it is found again. -/
theorem requeued_keeps_head_alone : ∃ s₀ s : World Unit, (system lone).Run requeuedAlone s₀ ∧
    Requeued () 0 1 s₀ ∧ Foremost lone () 1 (· ∈ started requeuedAlone) s₀ ∧
    ((system lone).within fun s e s' => Meanwhile () 0 1 s e s' ∧ InReach lone () 1 s e).Path s₀
      handsBack s ∧ ∀ id' ∈ started handsBack, id' ∈ started requeuedAlone := by
  have hbegin {s₀ : World Unit} (_ : (system lone).Run requeuedAlone s₀) :
      ((system lone).within fun s e s' => Meanwhile () 0 1 s e s' ∧ InReach lone () 1 s e).Path
        s₀ [] s₀ := .refl
  have hconclude {s₀ s : World Unit} (h₀ : (system lone).Run requeuedAlone s₀)
      (hrequeued : Requeued () 0 1 s₀) (hfirst : Foremost lone () 1 (· ∈ started requeuedAlone) s₀)
      (h : ((system lone).within fun s e s' => Meanwhile () 0 1 s e s' ∧ InReach lone () 1 s e).Path
        s₀ handsBack s) : ∃ s₀ s : World Unit, (system lone).Run requeuedAlone s₀ ∧
      Requeued () 0 1 s₀ ∧ Foremost lone () 1 (· ∈ started requeuedAlone) s₀ ∧
      ((system lone).within fun s e s' => Meanwhile () 0 1 s e s' ∧ InReach lone () 1 s e).Path s₀
        handsBack s ∧ ∀ id' ∈ started handsBack, id' ∈ started requeuedAlone :=
    ⟨s₀, s, h₀, hrequeued, hfirst, h, requeued_keeps_head h₀ hrequeued hfirst h⟩
  have h : (system lone).Run [] (⟨.initial, fun _ => .initial, []⟩ : World Unit) := .start rfl
  have h := h.step (Step.act () _ _ rfl (.run (.ask rfl rfl)))
  have h := h.step (Step.exec () .run _ rfl)
  have h := h.step (Step.act () _ _ rfl (.run (.won 0 rfl)))
  have h := h.step (Step.append 1 ping (by decide))
  have h := h.step (Step.append 2 ping (by decide))
  have h := h.step (Step.exec () .lead _ rfl)
  have h := h.step (Step.act () _ _ rfl (.lead rfl (.ensured .top _ rfl rfl)))
  have h := h.step (Step.act () _ _ rfl (.lead rfl (.skip rfl rfl rfl rfl)))
  have h := h.step (Step.exec () .lead _ rfl)
  have h := h.step (Step.act () _ _ rfl (.lead rfl (.read [(some 1, some ping)] rfl rfl)))
  have h := h.step (Step.act () _ _ rfl
    (.lead rfl (.startUncapped 1 ping [] _ rfl (by decide) decode_ping rfl)))
  have h₀ := h.step (Step.act () _ _ rfl (.task (t := 0) rfl (.requeue rfl)))
  have h := hbegin h₀
  have h := h.step ⟨⟨meanwhile_act (by simp) (by simp) (by exact ⟨rfl, _, rfl, rfl, id⟩)
    (by rintro task ⟨⟩; rfl) (by rintro l ⟨⟩; exact id), inReach_lone (by exact rfl)⟩,
    Step.act () _ _ rfl (.task (t := 0) rfl (.delayed rfl))⟩
  have h := h.step ⟨⟨meanwhile_act (by simp) (by simp) (by exact ⟨rfl, _, rfl, rfl, id⟩)
    (by rintro task ⟨⟩; rfl) (by rintro l ⟨⟩; exact id), inReach_lone (by exact rfl)⟩,
    Step.act () _ _ rfl (.task (t := 0) rfl (.locked rfl rfl))⟩
  have h := h.step ⟨⟨meanwhile_exec (by rintro ⟨task, r, ⟨⟩, hr⟩; cases hr)
    (by exact ⟨rfl, _, rfl, rfl, id⟩) (by rintro task ⟨⟩; rfl) (by rintro l ⟨⟩; exact id),
    inReach_lone (by exact rfl)⟩, Step.exec () (.task 0) _ rfl⟩
  have h := h.step ⟨⟨meanwhile_act (by simp) (by simp) (by exact ⟨rfl, _, rfl, rfl, id⟩)
    (by rintro task ⟨⟩; rfl) (by rintro l ⟨⟩; exact id), inReach_lone (by exact rfl)⟩,
    Step.act () _ _ rfl (.task (t := 0) rfl (.handed .done rfl rfl))⟩
  have h := h.step ⟨⟨meanwhile_act (by simp) (by simp) (by exact ⟨rfl, _, rfl, rfl, id⟩)
    (by rintro task ⟨⟩; rfl) (by rintro l ⟨⟩; exact id), inReach_lone (by exact rfl)⟩,
    Step.act () _ _ rfl (.lead rfl (.settled 0 _ [] rfl rfl (Or.inr ⟨false, rfl⟩)
      (by simp [Task.GoesBack])))⟩
  have h := h.step ⟨⟨meanwhile_act (by simp) (by simp) (by exact ⟨rfl, _, rfl, rfl, id⟩)
    (by rintro task ⟨⟩; rfl) (by rintro l ⟨⟩; exact id), inReach_lone (by exact rfl)⟩,
    Step.act () _ _ rfl (.lead rfl (.batchDone rfl))⟩
  have h := h.step ⟨⟨meanwhile_act (by simp) (by simp) (by exact ⟨rfl, _, rfl, rfl, id⟩)
    (by rintro task ⟨⟩; rfl) (by rintro l ⟨⟩; exact id), inReach_lone (by exact rfl)⟩,
    Step.act () _ _ rfl (.lead rfl (.reclaim rfl rfl rfl))⟩
  have h := h.step ⟨⟨meanwhile_exec (by rintro ⟨l, r, ⟨⟩, hr⟩; cases hr)
    (by exact ⟨rfl, _, rfl, rfl, id⟩) (by rintro task ⟨⟩; rfl) (by rintro l ⟨⟩; exact id),
    inReach_lone (by exact rfl)⟩, Step.exec () .lead _ rfl⟩
  have h := h.step ⟨⟨meanwhile_act (by simp) (by simp) (by exact ⟨rfl, _, rfl, rfl, id⟩)
    (by rintro task ⟨⟩; rfl) (by rintro l ⟨⟩; exact id), inReach_lone (by exact rfl)⟩,
    Step.act () _ _ rfl (.lead rfl (.timed _ .done rfl rfl))⟩
  have h := h.step ⟨⟨meanwhile_exec (by rintro ⟨l, r, ⟨⟩, hr⟩; cases hr)
    (by exact ⟨rfl, _, rfl, rfl, id⟩) (by rintro task ⟨⟩; rfl) (by rintro l ⟨⟩; exact id),
    inReach_lone (by exact rfl)⟩, Step.exec () .lead (.autoclaim 0) rfl⟩
  have h := h.step ⟨⟨meanwhile_act (by simp) (by simp) (by exact ⟨rfl, _, rfl, rfl, id⟩)
    (by rintro task ⟨⟩; rfl) (by rintro l ⟨⟩; exact id), inReach_lone (by exact rfl)⟩,
    Step.act () _ _ rfl (.lead rfl (.claimed _ [(some 1, some ping)] 0 rfl rfl))⟩
  refine hconclude h₀ ⟨⟨⟨rfl, _, rfl, rfl, id⟩, ?_⟩, _, rfl, rfl, rfl, rfl⟩ ⟨?_, ?_, ?_, ?_⟩ h
  · exact fun w' hne => absurd (Subsingleton.elim w' ()) hne
  · exact ⟨ping, List.mem_cons_self⟩
  · exact List.mem_cons_self
  · rintro l ⟨⟩ d hd
    cases hd
  · intro id' (hid' : id' ∈ [1]) hlt
    exact absurd (List.mem_singleton.mp hid') hlt.ne

/-- Two entries were delivered and their replies lost. The leader finds both in its backlog and
starts entry `1`, whose handler raises. -/
def requeuedInBatch : List (Event Unit) :=
  [.act () .quiet, .act () (.start 1), .act () .quiet, .exec () .lead (.readOwn 100),
    .act () .quiet, .exec () .lead (.autoclaim 0), .act () .quiet, .exec () .lead .time,
    .act () .quiet, .act () .quiet, .exec () .lead .ensureGroup, .act () .quiet,
    .exec () .run (.acquire 1), .act () .quiet, .act () .quiet, .exec () .lead (.release 0),
    .act () (.lose [.readNew]), .exec () .lead .readNew, .exec () .lead .readNew, .act () .quiet,
    .act () .quiet, .exec () .lead .ensureGroup, .append 2 ping, .append 1 ping, .act () .quiet,
    .exec () .run (.acquire 0), .act () .quiet]

/-- The hand-back is done, and the loop goes on with its batch. -/
def goesOn : List (Event Unit) :=
  [.act () (.start 2), .act () .quiet, .act () .quiet, .exec () (.task 0) (.handBack {1}),
    .act () .quiet, .act () .quiet]

/-- **The next entry of the batch is started before the job that was requeued.** -/
theorem started_before_requeued : ∃ s₀ s : World Unit, (system lone).Run requeuedInBatch s₀ ∧
    Requeued () 0 1 s₀ ∧ ((system lone).within (Meanwhile () 0 1)).Path s₀ goesOn s ∧
    2 ∈ started goesOn ∧ 2 ∉ started requeuedInBatch := by
  have hbegin {s₀ : World Unit} (_ : (system lone).Run requeuedInBatch s₀) :
      ((system lone).within (Meanwhile () 0 1)).Path s₀ [] s₀ := .refl
  have h : (system lone).Run [] (⟨.initial, fun _ => .initial, []⟩ : World Unit) := .start rfl
  have h := h.step (Step.act () _ _ rfl (.run (.ask rfl rfl)))
  have h := h.step (Step.exec () .run _ rfl)
  have h := h.step (Step.act () _ _ rfl (.run (.won 0 rfl)))
  have h := h.step (Step.append 1 ping (by decide))
  have h := h.step (Step.append 2 ping (by decide))
  have h := h.step (Step.exec () .lead _ rfl)
  have h := h.step (Step.act () _ _ rfl (.lead rfl (.ensured .top _ rfl rfl)))
  have h := h.step (Step.act () _ _ rfl (.lead rfl (.skip rfl rfl rfl rfl)))
  have h := h.step (Step.exec () .lead _ rfl)
  have h := h.step (Step.exec () .lead _ rfl)
  have h := h.step (Step.act () _ _ rfl (.lead rfl (.failed [] rfl)))
  have h := h.step (Step.exec () .lead _ rfl)
  have h := h.step (Step.act () _ _ rfl (.lead rfl (.released .done rfl rfl)))
  have h := h.step (Step.act () _ _ rfl (.run (.ask rfl rfl)))
  have h := h.step (Step.exec () .run _ rfl)
  have h := h.step (Step.act () _ _ rfl (.run (.won 1 rfl)))
  have h := h.step (Step.exec () .lead _ rfl)
  have h := h.step (Step.act () _ _ rfl (.lead rfl (.ensured .top _ rfl rfl)))
  have h := h.step (Step.act () _ _ rfl (.lead rfl (.reclaim rfl rfl rfl)))
  have h := h.step (Step.exec () .lead _ rfl)
  have h := h.step (Step.act () _ _ rfl (.lead rfl (.timed _ .done rfl rfl)))
  have h := h.step (Step.exec () .lead _ rfl)
  have h := h.step (Step.act () _ _ rfl (.lead rfl (.claimed _ [] 0 rfl rfl)))
  have h := h.step (Step.exec () .lead _ rfl)
  have h := h.step (Step.act () _ _ rfl (.lead rfl
    (.collected _ [(some 1, some ping), (some 2, some ping)] rfl rfl)))
  have h := h.step (Step.act () _ _ rfl
    (.lead rfl (.startUncapped 1 ping [(some 2, some ping)] _ rfl (by decide) decode_ping rfl)))
  have h₀ := h.step (Step.act () _ _ rfl (.task (t := 0) rfl (.requeue rfl)))
  have h := hbegin h₀
  have h := h.step ⟨meanwhile_act (by simp) (by simp) (by exact ⟨rfl, _, rfl, rfl, id⟩)
    (by rintro task ⟨⟩; rfl) (by rintro l ⟨⟩; exact id),
    Step.act () _ _ rfl (.task (t := 0) rfl (.delayed rfl))⟩
  have h := h.step ⟨meanwhile_act (by simp) (by simp) (by exact ⟨rfl, _, rfl, rfl, id⟩)
    (by rintro task ⟨⟩; rfl) (by rintro l ⟨⟩; exact id),
    Step.act () _ _ rfl (.task (t := 0) rfl (.locked rfl rfl))⟩
  have h := h.step ⟨meanwhile_exec (by rintro ⟨task, r, ⟨⟩, hr⟩; cases hr)
    (by exact ⟨rfl, _, rfl, rfl, id⟩) (by rintro task ⟨⟩; rfl) (by rintro l ⟨⟩; exact id),
    Step.exec () (.task 0) _ rfl⟩
  have h := h.step ⟨meanwhile_act (by simp) (by simp) (by exact ⟨rfl, _, rfl, rfl, id⟩)
    (by rintro task ⟨⟩; rfl) (by rintro l ⟨⟩; exact id),
    Step.act () _ _ rfl (.task (t := 0) rfl (.handed .done rfl rfl))⟩
  have h := h.step ⟨meanwhile_act (by simp) (by simp) (by exact ⟨rfl, _, rfl, rfl, id⟩)
    (by rintro task ⟨⟩; rfl) (by rintro l ⟨⟩; exact id),
    Step.act () _ _ rfl (.lead rfl (.settled 0 _ [(some 2, some ping)] rfl rfl
      (Or.inr ⟨false, rfl⟩) (by simp [Task.GoesBack])))⟩
  have h := h.step ⟨meanwhile_act (by simp) (by simp) (by exact ⟨rfl, _, rfl, rfl, id⟩)
    (by rintro task ⟨⟩; rfl) (by rintro l ⟨⟩; exact id),
    Step.act () _ _ rfl
      (.lead rfl (.startUncapped 2 ping [] _ rfl (by decide) decode_ping rfl))⟩
  refine ⟨_, _, h₀, ⟨⟨⟨rfl, _, rfl, rfl, id⟩, ?_⟩, _, rfl, rfl, rfl, rfl⟩, h, ?_, ?_⟩
  · exact fun w' hne => absurd (Subsingleton.elim w' ()) hne
  · exact List.mem_cons_self
  · show 2 ∉ [1]
    simp

end RedisSemaphore.Dispatch
