import RedisSemaphore.Dispatch.Order
import RedisSemaphore.Dispatch.Timeout

/-!
# First in, first out

Under one stable leader the queue is read in its order, one new entry after the other, and each is
started or skipped before the next one is read. The other workers only finish what had been started
before, ask for the Mutex and touch; none of that brings an entry back.

An entry is skipped for one of two reasons, and both are facts about the entry: its fields make no
job, or the leader's estimate of the server clock had reached the deadline of its job when the loop
compared the two. So the runs are those of `Timeout`, with the clock of the leader, and what a
skipped entry is says which clock reading it was compared with.
-/

namespace RedisSemaphore.Dispatch

open Redis Transition

variable {W : Type*} {π : Type} {cfg : Config W π}

/-! ## Runs under one stable leader -/

/-- The handler a step starts. -/
def Event.starts : Event W → Option ℕ
  | .act _ note => note.starts
  | _ => none

/-- The entries whose handlers have been started, newest first. -/
def started (tr : List (Event W)) : List ℕ := tr.filterMap Event.starts

/-- `w` leads the queue, and nobody else does. -/
structure Leading (w : W) (s : World W) : Prop where
  leads : (s.workers w).Leads
  alone : ∀ w', w' ≠ w → (s.workers w').lead = none

/-- Who still leads after a crash is not the one that has crashed. -/
theorem Leading.ne_of_crash [DecidableEq W] {w w' : W} {server : Server W} {workers : W → Worker W}
    {stray : List (W × Command W)}
    (h : Leading w ⟨server, Function.update workers w' .dead, stray⟩) : w ≠ w' := by
  rintro rfl
  obtain ⟨-, l, hl, -⟩ := h.leads
  simp only [Function.update_self] at hl
  cases hl

/-- The coroutine has the reply to its command. -/
def Worker.Replied (k : Worker W) : Co → Prop
  | .run => ∃ mutex r, k.election = .asking mutex (some r)
  | .lead => ∃ l r, k.lead = some l ∧ l.reply = some r
  | .task t => ∃ task r, k.tasks[t]? = some task ∧ task.reply = some r
  | .touch => ∃ entries r, k.touch = .claiming entries (some r)

/-- A lead loop that has no reply yet. -/
theorem Worker.reply_eq_none {k : Worker W} {l : Lead W} (hlead : k.lead = some l)
    (hnot : ¬ k.Replied .lead) : l.reply = none := by
  cases hreply : l.reply with
  | none => rfl
  | some r => exact absurd ⟨l, r, hlead, hreply⟩ hnot

/-- A step in which `w` goes on leading, none of its commands fails, loses its reply or is sent
again, no command takes effect late, and no handler of `w` raises `RequeueJob`. A handler that is
cancelled before it is admitted makes the leader leave, so it is excluded with the leader's
leaving. -/
structure Smooth (w : W) (s : World W) (e : Event W) (s' : World W) : Prop where
  leading : Leading w s'
  inTime : ∀ w' cmd, e ≠ .late w' cmd
  sentOnce : ∀ co cmd, e = .exec w co cmd → ¬ (s.workers w).Replied co
  answered : ∀ commands, e ≠ .act w (.lose commands)
  kept : ∀ (t : ℕ) (task task' : Task W), (s.workers w).tasks[t]? = some task →
    (s'.workers w).tasks[t]? = some task' → task.phase = .handler → task'.phase ≠ .delaying

/-- `w` has just been elected, nobody else leads, and nothing is pending. -/
structure Elected (w : W) (s : World W) : Prop where
  leading : Leading w s
  entering : ∀ l, (s.workers w).lead = some l → l.pc = .ensuring .top
  pending : s.server.stream.pendingIds = []

/-- The entry was waiting unread at the start, or has been appended since. -/
def Queued (s₀ : World W) (tr : List (Event W)) (id : ℕ) (fields : Fields) : Prop :=
  (⟨id, fields⟩ ∈ s₀.server.stream.entries ∧ s₀.server.stream.lastDelivered < id) ∨
    .append id fields ∈ tr

/-- Time passes as it likes; what happens in the queue is smooth. -/
def Undisturbed (w : W) (s : Timed W π) (e : TimedEvent W) (s' : Timed W π) : Prop :=
  ∀ e', e = .event e' → Smooth w s.world e' s'.world

/-- The entry is malformed; or its turn came, no later entry having been started, at a moment when
the leader's estimate of the server clock had reached the deadline of its job, and it was dropped
for that. -/
def Skipped (cfg : Config W π) (w : W) (s₀ : Timed W π) (tr : List (TimedEvent W)) (id : ℕ)
    (fields : Fields) : Prop :=
  decode cfg.python fields = none ∨
    ∃ job older newer, decode cfg.python fields = some job ∧
      tr = newer ++ .event (.act w (.judge id)) :: older ∧
      job.Expired (estimateAfter s₀ older) ∧ ∀ id' ∈ started (queueTrace older), id' < id

/-- A worker without a lead loop starts nothing. -/
theorem WorkerStep.starts_eq_none [DecidableEq W] {w : W} {k k' : Worker W} {note : Note W}
    (h : WorkerStep cfg w k note k') (hlead : k.lead = none) : note.starts = none := by
  cases note with
  | start id =>
    obtain ⟨l, hl, -⟩ := h.coming_of_start
    exact absurd (hl.symm.trans hlead) (by simp)
  | quiet | judge | lose => rfl

/-! ## Runs -/

section Run

variable {tr : List (Event W)} {s₀ s s' : World W} {w : W} {e : Event W}
  {skipped skipped' : ℕ → Fields → Prop}

/-- One more event starts one handler at most. -/
theorem started_cons : started (e :: tr) = e.starts.toList ++ started tr := by
  rw [started, List.filterMap_cons]
  cases e.starts <;> rfl

/-- Beside appends, what has been queued stays the same. -/
theorem queued_cons (happend : ∀ id fields, e ≠ .append id fields) :
    Queued s₀ (e :: tr) = Queued s₀ tr := by
  funext id fields
  refine propext (or_congr_right (List.mem_cons.trans (or_iff_right ?_)))
  exact fun heq => happend id fields heq.symm

/-- The leader's view of the queue in a run; `skipped` is what may be left out. -/
abbrev View (skipped : ℕ → Fields → Prop) (s₀ : World W) (tr : List (Event W))
    (stream : StreamKey W Fields) (k : Worker W) (l : Lead W) : Prop :=
  InOrder (Queued s₀ tr) skipped (started tr) stream k l

/-- A step that neither appends nor starts anything. -/
theorem InOrder.later {stream : StreamKey W Fields} {k : Worker W} {l : Lead W}
    (h : View skipped s₀ tr stream k l) (happend : ∀ id fields, e ≠ .append id fields)
    (hstarts : e.starts = none) : View skipped s₀ (e :: tr) stream k l := by
  rw [View, queued_cons happend, started_cons, hstarts]
  exact h

/-- The invariant: `w` leads, and sees the queue in order. -/
structure Ordered (skipped : ℕ → Fields → Prop) (w : W) (s₀ : World W) (tr : List (Event W))
    (s : World W) : Prop where
  leading : Leading w s
  order : ∃ l, (s.workers w).lead = some l ∧
    View skipped s₀ tr s.server.stream (s.workers w) l

/-- More may be left out. -/
theorem Ordered.mono (h : Ordered skipped w s₀ tr s)
    (hmore : ∀ id fields, skipped id fields → skipped' id fields) :
    Ordered skipped' w s₀ tr s := by
  obtain ⟨hleading, l, hl, hview⟩ := h
  exact ⟨hleading, l, hl, InOrder.mono hview hmore⟩

variable (cfg) in
/-- What the other coroutines send narrows the stream. -/
theorem narrows_of_command [DecidableEq W] {co : Co} {cmd : Command W} (honce : OnceAt w ∅ s)
    (hco : co ≠ .lead) (hcmd : (s.workers w).command co = some cmd) :
    Narrows s.server.stream (exec cfg w s.server cmd).1.stream := by
  refine narrows_exec ?_ ?_ ?_
  · rintro rfl
    rcases Worker.command_cases hco hcmd with ⟨_, heq⟩ | ⟨_, _, heq⟩ | ⟨_, heq⟩ | ⟨_, heq⟩ <;>
      cases heq
  · rintro id rfl
    rcases Worker.command_cases hco hcmd with ⟨_, heq⟩ | ⟨_, _, heq⟩ | ⟨_, heq⟩ | ⟨_, heq⟩ <;>
      cases heq
  · rintro jobId id rfl
    exact honce.worker.delivered id (Worker.works_of_finish hcmd).2

/-- A command of the lead loop executes, once. -/
theorem InOrder.execLead [DecidableEq W] {k : Worker W} {l : Lead W} {server : Server W}
    {cmd : Command W} (h : View skipped s₀ tr server.stream k l)
    (hdelivered : ∀ id, k.Works id → id ≤ server.stream.lastDelivered) (hreply : l.reply = none)
    (hcmd : l.command = some cmd) :
    View skipped s₀ tr (exec cfg w server cmd).1.stream (k.answer (exec cfg w server cmd).2 .lead)
      { l with reply := some (exec cfg w server cmd).2 } := by
  by_cases hpc : l.pc = .reading
  · rw [Lead.command, hpc] at hcmd
    obtain rfl := Option.some.inj hcmd
    rw [exec]
    split
    · refine InOrder.answerLead h hreply ?_ ?_
      · rw [hpc]
        rfl
      · intro id hack
        rw [hpc] at hack
        exact hack.elim
    · rename_i stream es hread
      obtain ⟨rfl, -⟩ := StreamKey.readNew_eq_some hread
      exact InOrder.answerRead h hpc hreply hdelivered hread rfl
  · have hnarrows : Narrows server.stream (exec cfg w server cmd).1.stream := by
      refine narrows_exec ?_ ?_ ?_
      · rintro rfl
        exact hpc (Lead.pc_of_command_readNew hcmd)
      · rintro id rfl
        obtain ⟨rest, hdeleting⟩ := Lead.pc_of_command_del hcmd
        exact h.discarded id (hdeleting ▸ rfl)
      · rintro jobId id rfl
        exact absurd hcmd Lead.command_ne_finish
    refine InOrder.answerLead (h.narrows hnarrows) hreply ?_ ?_
    · rcases arriving_exec cfg server w hcmd with hnil | ⟨-, snapshot, hsome, hsub⟩ | ⟨hreading, -⟩
      · exact hnil
      · -- the snapshot holds every pending entry
        have hnone : server.stream.pendingIds.filter (· ∉ snapshot) = [] := by
          refine List.filter_eq_nil_iff.mpr fun id hid => ?_
          simpa using h.snapshot snapshot hsome id hid
        rw [hnone] at hsub
        exact List.sublist_nil.mp hsub
      · exact absurd hreading hpc
    · intro id hack hid
      cases hl : l.pc with
      | acking entry thenDel rest =>
        rw [hl] at hack
        obtain rfl : entry = id := hack
        rw [Lead.command, hl] at hcmd
        obtain rfl := Option.some.inj hcmd
        exact (StreamKey.mem_pendingIds_ack.mp hid).2 rfl
      | _ =>
        rw [hl] at hack
        exact hack.elim

/-- A command of another coroutine of the leader executes. -/
theorem InOrder.execOther [DecidableEq W] {l : Lead W} {co : Co} {cmd : Command W}
    (h : View skipped s₀ tr s.server.stream (s.workers w) l) (honce : OnceAt w ∅ s)
    (hco : co ≠ .lead) (hcmd : (s.workers w).command co = some cmd) :
    View skipped s₀ tr (exec cfg w s.server cmd).1.stream
      ((s.workers w).answer (exec cfg w s.server cmd).2 co) l := by
  have hnarrow := h.narrows (narrows_of_command cfg honce hco hcmd)
  cases co with
  | lead => exact absurd rfl hco
  | run =>
    rw [Worker.answer]
    split
    · exact hnarrow.congr rfl rfl
    · exact hnarrow
  | touch =>
    rw [Worker.answer]
    split
    · exact hnarrow.congr rfl rfl
    · exact hnarrow
  | task t =>
    refine hnarrow.answerTask fun task htask hphase hid => ?_
    rw [Worker.command, htask] at hcmd
    have hfinish : cmd = .finish task.jobId task.entry := by
      have hsent : task.command = some cmd := hcmd
      rw [Task.command, hphase] at hsent
      exact (Option.some.inj hsent).symm
    subst hfinish
    exact (StreamKey.mem_pendingIds_ack.mp hid).2 rfl

/-- **Every smooth step keeps the order**, when what may be left out has the malformed entries and
the entry that this very step judges, which is at the head of the leader's batch. -/
theorem Ordered.step [DecidableEq W] (h : Ordered skipped w s₀ tr s)
    (hserial : Serial cfg w (s.workers w)) (honce : ∀ w', OnceAt w' ∅ s) (hsmooth : Smooth w s e s')
    (hstep : Step cfg s e s') (hdecode : ∀ id fields, decode cfg.python fields = none →
      skipped id fields)
    (hjudge : ∀ id fields job l rest, e = .act w (.judge id) → (s.workers w).lead = some l →
      l.pc = .batch ((some id, some fields) :: rest) → decode cfg.python fields = some job →
      skipped id fields) : Ordered skipped w s₀ (e :: tr) s' := by
  obtain ⟨hleading, l, hl, hview⟩ := h
  refine ⟨hsmooth.leading, ?_⟩
  cases hstep with
  | append id fields hnew =>
    refine ⟨l, hl, InOrder.append hview hnew fun id' fields' hqueued => ?_⟩
    rcases hqueued with hstart | hmem
    · exact Or.inl (Or.inl hstart)
    · rcases List.mem_cons.mp hmem with heq | hold
      · obtain ⟨rfl, rfl⟩ := Event.append.inj heq
        exact Or.inr ⟨rfl, rfl⟩
      · exact Or.inl (Or.inr hold)
  | advance now hnow => exact ⟨l, hl, hview.later (by simp) rfl⟩
  | expire => exact ⟨l, hl, hview.later (by simp) rfl⟩
  | late w' cmd hstray => exact absurd rfl (hsmooth.inTime w' cmd)
  | exec w' co cmd hcmd =>
    by_cases heq : w = w'
    · subst heq
      simp only [Function.update_self]
      -- only commands of the leader's loop deliver; all others narrow what is pending
      by_cases hco : co = .lead
      · subst hco
        have hreply := Worker.reply_eq_none hl (hsmooth.sentOnce .lead cmd rfl)
        have hsent := (Worker.command_lead hl).symm.trans hcmd
        refine ⟨_, by rw [Worker.answer, hl]; rfl, ?_⟩
        exact (InOrder.execLead hview (honce w).worker.delivered hreply hsent).later (by simp) rfl
      · refine ⟨l, ?_, (hview.execOther (honce w) hco hcmd).later (by simp) rfl⟩
        rw [← hl]
        exact Worker.answer_lead hco
    · have hco := Worker.co_ne_lead (hleading.alone w' (Ne.symm heq)) hcmd
      have hnarrow := hview.narrows (narrows_of_command cfg (honce w') hco hcmd)
      refine ⟨l, ?_, ?_⟩
      · simpa only [Function.update_of_ne heq] using hl
      · simpa only [Function.update_of_ne heq] using hnarrow.later (by simp) rfl
  | act w' note k halive hstep =>
    by_cases heq : w = w'
    · subst heq
      have hafter := hsmooth.leading.leads
      have hkept := hsmooth.kept
      simp only [Function.update_self] at hafter hkept ⊢
      obtain ⟨l', hl', hview'⟩ := InOrder.step hview hl hleading.leads hserial hstep hafter
        (fun commands hlose => hsmooth.answered commands (hlose ▸ rfl)) hkept hdecode
        (fun id fields job rest heq => hjudge id fields job l rest (heq ▸ rfl) hl)
      refine ⟨l', hl', ?_⟩
      rw [View, queued_cons (by simp), started_cons]
      exact hview'
    · have hquiet : note.starts = none :=
        hstep.starts_eq_none (hleading.alone w' (Ne.symm heq))
      refine ⟨l, ?_, ?_⟩
      · simpa only [Function.update_of_ne heq] using hl
      · simpa only [Function.update_of_ne heq] using
          hview.later (e := .act w' note) (by simp) hquiet
  | crash w' =>
    have heq := hsmooth.leading.ne_of_crash
    refine ⟨l, ?_, ?_⟩
    · simpa only [Function.update_of_ne heq] using hl
    · simpa only [Function.update_of_ne heq] using hview.later (by simp) rfl

/-- A lead loop that starts a handler waits for none. -/
theorem Step.not_watches [DecidableEq W] {id : ℕ} (h : Step cfg s (.act w (.start id)) s') :
    ∃ l, (s.workers w).lead = some l ∧ ∀ t, ¬ l.pc.Watches t := by
  cases h with
  | act _ _ k halive hstep =>
    cases hstep with
    | @lead l _ _ hlead hstep =>
      refine ⟨l, hlead, ?_⟩
      cases hstep with
      | startUncapped _ fields rest job hpc => exact hpc ▸ fun _ h => h
      | startCapped _ jobId rest m hpc => exact hpc ▸ fun _ h => h
    | task htask hstep => cases hstep
    | run hstep => cases hstep
    | touch hstep => cases hstep

/-- At the moment of the election nothing is out of order. -/
theorem Elected.ordered (h : Elected w s₀) : Ordered skipped w s₀ [] s₀ := by
  obtain ⟨hgoing, l, hl, hheld, hstays⟩ := h.leading.leads
  have hpc := h.entering l hl
  have hnone : ∀ id, id ∉ s₀.server.stream.pendingIds := by
    intro id
    rw [h.pending]
    exact List.not_mem_nil
  have hcoming : l.coming = [] := Lead.coming_eq hpc fun _ => rfl
  refine ⟨h.leading, l, hl, ?_, ?_, ?_, ?_, .nil, ?_, ?_, ?_, ?_, ?_, ?_⟩
  · exact fun id hid => absurd hid (hnone id)
  · exact fun snapshot _ id hid => absurd hid (hnone id)
  · exact hcoming ▸ .nil
  · intro id hid
    rw [hcoming] at hid
    exact absurd hid List.not_mem_nil
  · exact fun id hid => absurd hid List.not_mem_nil
  · rintro id fields (⟨-, hlt⟩ | hmem) hle
    · exact absurd hlt (Nat.not_lt.mpr hle)
    · exact absurd hmem List.not_mem_nil
  · intro id reported hmem
    have hid := l.mem_coming_of_carried hmem
    rw [hcoming] at hid
    exact absurd hid List.not_mem_nil
  · rintro id fields (⟨hmem, -⟩ | hmem) -
    · exact hmem
    · exact absurd hmem List.not_mem_nil
  · exact fun t task _ _ => hnone _
  · intro id hid
    rw [hpc] at hid
    exact hid.elim

end Run

/-! ## Runs with the clock of the leader -/

section TimedRun

variable {tr : List (TimedEvent W)} {s₀ s s' : Timed W π} {w : W}

/-- What has been skipped stays so. -/
theorem skipped_cons {e : TimedEvent W} {id : ℕ} {fields : Fields}
    (h : Skipped cfg w s₀ tr id fields) : Skipped cfg w s₀ (e :: tr) id fields := by
  refine h.imp_right ?_
  rintro ⟨job, older, newer, hjob, rfl, hexpired⟩
  exact ⟨job, older, e :: newer, hjob, rfl, hexpired⟩

variable [DecidableEq W]

/-- What happens in the queue in a step of a timed run. -/
theorem TimedStep.step {e : Event W} (h : TimedStep cfg w s (.event e) s') :
    Step cfg s.world e s'.world := by
  cases h with
  | other _ world hother hstep => exact hstep
  | act note world hstep htimely => exact hstep

/-- The leader judges the head of its batch to be past its deadline only when it is, at the estimate
of that moment. -/
theorem TimedStep.judged {id : ℕ} {fields : Fields} {job : Job π} {l : Lead W}
    {rest : List Delivery} (h : TimedStep cfg w s (.event (.act w (.judge id))) s')
    (hlead : (s.world.workers w).lead = some l)
    (hpc : l.pc = .batch ((some id, some fields) :: rest))
    (hjob : decode cfg.python fields = some job) : job.Expired s.estimate := by
  cases h with
  | other _ world hother hstep => exact absurd rfl (hother _)
  | act note world hstep htimely =>
    exact htimely.judged id job rfl ((decoded_of_pc hlead hpc).trans hjob)

/-- **The leader keeps the order** from its election on: one step of a timed run. -/
theorem Ordered.timedStep {e : TimedEvent W}
    (h : Ordered (Skipped cfg w s₀ tr) w s₀.world (queueTrace tr) s.world)
    (hserial : Serial cfg w (s.world.workers w)) (honce : ∀ w', OnceAt w' ∅ s.world)
    (hestimate : s.estimate = estimateAfter s₀ tr) (hquiet : Undisturbed w s e s')
    (hstep : TimedStep cfg w s e s') :
    Ordered (Skipped cfg w s₀ (e :: tr)) w s₀.world (queueTrace (e :: tr)) s'.world := by
  have hmore := h.mono fun id fields => skipped_cons (e := e)
  cases e with
  | tick now =>
    cases hstep
    exact hmore
  | measure server =>
    cases hstep
    exact hmore
  | event e =>
    refine hmore.step hserial honce (hquiet e rfl) hstep.step (fun _ _ => Or.inl) ?_
    rintro id fields job l rest rfl hl hpc hjob
    refine Or.inr ⟨job, tr, [], hjob, rfl, hestimate ▸ hstep.judged hl hpc hjob, ?_⟩
    -- the head of the batch is ahead of everything that has been started
    obtain ⟨l₀, hl₀, hview⟩ := h.order
    obtain rfl := Option.some.inj (hl.symm.trans hl₀)
    have hhead : id ∈ l.coming := by
      rw [Lead.coming_eq hpc fun _ => rfl]
      exact List.mem_cons_self
    exact (InOrder.ahead hview id hhead).2

/-- The leader keeps the order from its election on. -/
theorem ordered_of_path {tr₀ : List (TimedEvent W)} (h₀ : (timed cfg w).Run tr₀ s₀)
    (helected : Elected w s₀.world) (h : ((timed cfg w).within (Undisturbed w)).Path s₀ tr s) :
    Ordered (Skipped cfg w s₀ tr) w s₀.world (queueTrace tr) s.world := by
  refine System.Path.invariant
    (I := fun tr s => Ordered (Skipped cfg w s₀ tr) w s₀.world (queueTrace tr) s.world)
    helected.ordered ?_ h
  rintro tr s e s' hpath hordered ⟨hquiet, hstep⟩
  have hrun := run_of_timed (h₀.append hpath.of_within)
  exact hordered.timedStep (serial_of_run hrun w) (fun w' => onceAt_of_run hrun)
    (estimate_of_path hpath.of_within) hquiet hstep

/-- **First in, first out under a stable leader.** Handlers are started in the order of the stream,
none twice; an entry that was queued before a started one has been started too, or is malformed, or
was past its deadline when its turn came; and when a handler is started, every handler before it has
been admitted or is over. -/
theorem fifo_under_stable_leader {tr₀ : List (TimedEvent W)} (h₀ : (timed cfg w).Run tr₀ s₀)
    (helected : Elected w s₀.world) (h : ((timed cfg w).within (Undisturbed w)).Path s₀ tr s) :
    (started (queueTrace tr)).Pairwise (fun later earlier => earlier < later) ∧
    (∀ id ∈ started (queueTrace tr), ∀ id' fields,
      Queued s₀.world (queueTrace tr) id' fields → id' < id →
      id' ∈ started (queueTrace tr) ∨ Skipped cfg w s₀ tr id' fields) ∧
    ∀ w' id s', TimedStep cfg w s (.event (.act w' (.start id))) s' →
      ∀ w'' (t : ℕ) (task : Task W), (s.world.workers w'').tasks[t]? = some task →
        task.Settled := by
  have hordered := ordered_of_path h₀ helected h
  obtain ⟨l, hl, hview⟩ := hordered.order
  refine ⟨InOrder.descending hview, ?_, ?_⟩
  · intro id hid id' fields hqueued hlt
    have hle : id' ≤ s.world.server.stream.lastDelivered :=
      hlt.le.trans (InOrder.delivered hview id hid)
    rcases InOrder.covered hview id' fields hqueued hle with hstart | hskip | hmem
    · exact Or.inl hstart
    · exact Or.inr hskip
    · -- what is still in hand is ahead of everything started, `id` among it
      have hafter := (InOrder.ahead hview id' hmem).2 id hid
      omega
  · intro w' id s' hstart w'' t task htask
    have hrun := run_of_timed (h₀.append h.of_within)
    by_contra hopen
    obtain ⟨hadmitted, hended⟩ := not_or.mp hopen
    obtain ⟨l', hl', hwatches⟩ :=
      (serial_of_run hrun w'').watched t task htask ⟨by simpa using hadmitted, hended⟩
    -- only `w` has a lead loop, and one that starts a handler waits for none
    obtain rfl : w'' = w := by
      by_contra hne
      rw [hordered.leading.alone w'' hne] at hl'
      cases hl'
    obtain ⟨l₁, hl₁, hfree⟩ := hstart.step.not_watches
    obtain rfl : w' = w'' := by
      by_contra hne
      rw [hordered.leading.alone w' hne] at hl₁
      cases hl₁
    obtain rfl := Option.some.inj (hl₁.symm.trans hl')
    exact hfree t hwatches

end TimedRun

section Lone

variable {s s' : Timed Unit Unit}

/-- Nothing disturbs a leader that is alone and runs no handler. -/
theorem undisturbed_lone {e : Event Unit} (htasks : (s.world.workers ()).tasks = [])
    (hlate : ∀ w' cmd, e ≠ .late w' cmd)
    (hsent : ∀ co cmd, e = .exec () co cmd → ¬ (s.world.workers ()).Replied co)
    (hanswered : ∀ commands, e ≠ .act () (.lose commands))
    (hleads : (s'.world.workers ()).Leads) : Undisturbed () s (.event e) s' := by
  rintro e' ⟨⟩
  refine ⟨⟨hleads, fun w' hne => absurd (Subsingleton.elim w' ()) hne⟩, hlate, hsent,
    hanswered, ?_⟩
  intro t task task' htask
  rw [htasks] at htask
  simp at htask

/-- Its own segments do not. -/
theorem undisturbed_act {note : Note Unit} (htasks : (s.world.workers ()).tasks = [])
    (hanswered : ∀ commands, note ≠ .lose commands) (hleads : (s'.world.workers ()).Leads) :
    Undisturbed () s (.event (.act () note)) s' := by
  refine undisturbed_lone htasks (by simp) (by simp) ?_ hleads
  intro commands heq
  exact hanswered commands (Event.act.inj heq).2

/-- A producer does not. -/
theorem undisturbed_append {id : ℕ} {fields : Fields} (htasks : (s.world.workers ()).tasks = [])
    (hleads : (s'.world.workers ()).Leads) : Undisturbed () s (.event (.append id fields)) s' :=
  undisturbed_lone htasks (by simp) (by simp) (by simp) hleads

/-- A command that has not been answered yet does not. -/
theorem undisturbed_exec {cmd : Command Unit} (htasks : (s.world.workers ()).tasks = [])
    (hreply : ∀ l, (s.world.workers ()).lead = some l → l.reply = none)
    (hleads : (s'.world.workers ()).Leads) :
    Undisturbed () s (.event (.exec () .lead cmd)) s' := by
  refine undisturbed_lone htasks (by simp) ?_ (by simp) hleads
  rintro co cmd' heq hreplied
  obtain ⟨-, rfl, -⟩ := Event.exec.inj heq
  obtain ⟨l, r, hl, hr⟩ := hreplied
  rw [hreply l hl] at hr
  cases hr

/-- A single worker, with the parser of `oneSlot`. -/
def lone : Config Unit Unit := ⟨oneSlot.python, 1000, fun _ => none, true⟩

/-- Entry `1` has no fields, and is dropped. Entry `2` is read at once; by the time the loop looks
at its deadline the clock shows three seconds, one too many, and it is dropped. Entry `3` is
started. -/
def lateSecond : List (TimedEvent Unit) :=
  [.event (.act () (.start 3)), .event (.act () .quiet), .event (.exec () .lead .readNew),
    .event (.act () .quiet), .event (.act () .quiet), .event (.act () .quiet),
    .event (.exec () .lead (.del 2)), .event (.act () .quiet), .event (.exec () .lead (.ack 2)),
    .event (.act () (.judge 2)), .tick 3, .event (.act () .quiet),
    .event (.exec () .lead .readNew), .event (.act () .quiet), .event (.act () .quiet),
    .event (.act () .quiet), .event (.exec () .lead (.ack 1)), .event (.act () .quiet),
    .event (.act () .quiet), .event (.exec () .lead .readNew), .event (.act () .quiet),
    .event (.act () .quiet), .event (.exec () .lead .ensureGroup), .event (.append 3 ping),
    .event (.append 2 bounded), .event (.append 1 [])]

/-- Entry `1` has no fields and entry `2` is past its deadline when its turn comes; both are
skipped and `3` starts. -/
theorem fifo_under_stable_leader_late : ∃ s₀ s : Timed Unit Unit,
    (timed lone ()).Run [.event (.act () .quiet), .event (.exec () .run (.acquire 0)),
      .event (.act () .quiet)] s₀ ∧
    Elected () s₀.world ∧ ((timed lone ()).within (Undisturbed ())).Path s₀ lateSecond s ∧
    started (queueTrace lateSecond) = [3] ∧
    (1 ∈ started (queueTrace lateSecond) ∨ Skipped lone () s₀ lateSecond 1 []) ∧
    (2 ∈ started (queueTrace lateSecond) ∨ Skipped lone () s₀ lateSecond 2 bounded) := by
  have hbegin {tr₀ : List (TimedEvent Unit)} {s₀ : Timed Unit Unit}
      (_ : (timed lone ()).Run tr₀ s₀) :
      ((timed lone ()).within (Undisturbed ())).Path s₀ [] s₀ := .refl
  have hconclude {tr₀ tr : List (TimedEvent Unit)} {s₀ s : Timed Unit Unit}
      (h₀ : (timed lone ()).Run tr₀ s₀) (helected : Elected () s₀.world)
      (h : ((timed lone ()).within (Undisturbed ())).Path s₀ tr s)
      (hstart : started (queueTrace tr) = [3]) (hfirst : .append 1 [] ∈ queueTrace tr)
      (hsecond : .append 2 bounded ∈ queueTrace tr) : ∃ s₀ s : Timed Unit Unit,
      (timed lone ()).Run tr₀ s₀ ∧ Elected () s₀.world ∧
        ((timed lone ()).within (Undisturbed ())).Path s₀ tr s ∧
        started (queueTrace tr) = [3] ∧
        (1 ∈ started (queueTrace tr) ∨ Skipped lone () s₀ tr 1 []) ∧
        (2 ∈ started (queueTrace tr) ∨ Skipped lone () s₀ tr 2 bounded) := by
    have hthird : 3 ∈ started (queueTrace tr) := hstart ▸ List.mem_singleton_self 3
    have hfifo := (fifo_under_stable_leader h₀ helected h).2.1 3 hthird
    exact ⟨s₀, s, h₀, helected, h, hstart, hfifo 1 [] (Or.inr hfirst) (by decide),
      hfifo 2 bounded (Or.inr hsecond) (by decide)⟩
  have h : (timed lone ()).Run []
      (⟨⟨.initial, fun _ => .initial, []⟩, 0, 0, none⟩ : Timed Unit Unit) := .start ⟨rfl, rfl, rfl⟩
  have h := h.step (TimedStep.segment rfl rfl (.run (.ask rfl rfl)))
  have h := h.step (TimedStep.execute () .run rfl)
  have h₀ := h.step (TimedStep.segment rfl rfl (.run (.won 0 rfl)))
  have h := hbegin h₀
  have h := h.step ⟨undisturbed_append rfl (by exact ⟨rfl, _, rfl, rfl, id⟩),
    TimedStep.other _ _ (by simp) (Step.append 1 [] (by decide))⟩
  have h := h.step ⟨undisturbed_append rfl (by exact ⟨rfl, _, rfl, rfl, id⟩),
    TimedStep.other _ _ (by simp) (Step.append 2 bounded (by decide))⟩
  have h := h.step ⟨undisturbed_append rfl (by exact ⟨rfl, _, rfl, rfl, id⟩),
    TimedStep.other _ _ (by simp) (Step.append 3 ping (by decide))⟩
  have h := h.step ⟨undisturbed_exec rfl (by rintro l ⟨⟩; rfl) (by exact ⟨rfl, _, rfl, rfl, id⟩),
    TimedStep.execute () .lead rfl⟩
  have h := h.step ⟨undisturbed_act rfl (by simp) (by exact ⟨rfl, _, rfl, rfl, id⟩),
    TimedStep.segment rfl rfl (.lead rfl (.ensured .top _ rfl rfl))⟩
  have h := h.step ⟨undisturbed_act rfl (by simp) (by exact ⟨rfl, _, rfl, rfl, id⟩),
    TimedStep.segment rfl rfl (.lead rfl (.skip rfl rfl rfl rfl))⟩
  -- entry `1` is malformed
  have h := h.step ⟨undisturbed_exec rfl (by rintro l ⟨⟩; rfl) (by exact ⟨rfl, _, rfl, rfl, id⟩),
    TimedStep.execute () .lead rfl⟩
  have h := h.step ⟨undisturbed_act rfl (by simp) (by exact ⟨rfl, _, rfl, rfl, id⟩),
    TimedStep.segment rfl rfl (.lead rfl (.read [(some 1, some [])] rfl rfl))⟩
  have h := h.step ⟨undisturbed_act rfl (by simp) (by exact ⟨rfl, _, rfl, rfl, id⟩),
    TimedStep.segment rfl rfl (.lead rfl (.dropDeleted 1 (some []) [] rfl rfl))⟩
  have h := h.step ⟨undisturbed_exec rfl (by rintro l ⟨⟩; rfl) (by exact ⟨rfl, _, rfl, rfl, id⟩),
    TimedStep.execute () .lead rfl⟩
  have h := h.step ⟨undisturbed_act rfl (by simp) (by exact ⟨rfl, _, rfl, rfl, id⟩),
    TimedStep.segment rfl rfl (.lead rfl (.ackedDeleted 1 [] _ rfl rfl))⟩
  have h := h.step ⟨undisturbed_act rfl (by simp) (by exact ⟨rfl, _, rfl, rfl, id⟩),
    TimedStep.segment rfl rfl (.lead rfl (.batchDone rfl))⟩
  have h := h.step ⟨undisturbed_act rfl (by simp) (by exact ⟨rfl, _, rfl, rfl, id⟩),
    TimedStep.segment rfl rfl (.lead rfl (.skip rfl rfl rfl rfl))⟩
  -- entry `2` is past its deadline when the loop comes to it
  have h := h.step ⟨undisturbed_exec rfl (by rintro l ⟨⟩; rfl) (by exact ⟨rfl, _, rfl, rfl, id⟩),
    TimedStep.execute () .lead rfl⟩
  have h := h.step ⟨undisturbed_act rfl (by simp) (by exact ⟨rfl, _, rfl, rfl, id⟩),
    TimedStep.segment rfl rfl (.lead rfl (.read [(some 2, some bounded)] rfl rfl))⟩
  have h := h.step ⟨by rintro e' ⟨⟩, TimedStep.tick 3⟩
  have hexpired {now : ℚ} (hnow : now = 3) : boundedJob.Expired now := by
    refine ⟨2 - now, ?_, by norm_num [hnow]⟩
    simp only [Job.remaining, boundedJob, Option.map_some]
  have h := h.step ⟨undisturbed_act rfl (by simp) (by exact ⟨rfl, _, rfl, rfl, id⟩),
    TimedStep.act _ _ (Step.act () _ _ rfl (.lead rfl
      (.dropExpired 2 bounded [] boundedJob rfl (by simp [bounded]) decode_bounded
        (by simp [boundedJob]))))
    (timely_of_late decode_bounded (hexpired (add_zero 3)) (by simp)
      (by rintro ⟨_, _, _, _, ⟨⟩, ⟨⟩⟩))⟩
  have h := h.step ⟨undisturbed_exec rfl (by rintro l ⟨⟩; rfl) (by exact ⟨rfl, _, rfl, rfl, id⟩),
    TimedStep.execute () .lead rfl⟩
  have h := h.step ⟨undisturbed_act rfl (by simp) (by exact ⟨rfl, _, rfl, rfl, id⟩),
    TimedStep.segment rfl rfl (.lead rfl (.acked 2 [] _ rfl rfl))⟩
  have h := h.step ⟨undisturbed_exec rfl (by rintro l ⟨⟩; rfl) (by exact ⟨rfl, _, rfl, rfl, id⟩),
    TimedStep.execute () .lead rfl⟩
  have h := h.step ⟨undisturbed_act rfl (by simp) (by exact ⟨rfl, _, rfl, rfl, id⟩),
    TimedStep.segment rfl rfl (.lead rfl (.deleted 2 [] _ rfl rfl))⟩
  have h := h.step ⟨undisturbed_act rfl (by simp) (by exact ⟨rfl, _, rfl, rfl, id⟩),
    TimedStep.segment rfl rfl (.lead rfl (.batchDone rfl))⟩
  have h := h.step ⟨undisturbed_act rfl (by simp) (by exact ⟨rfl, _, rfl, rfl, id⟩),
    TimedStep.segment rfl rfl (.lead rfl (.skip rfl rfl rfl rfl))⟩
  -- entry `3` has no deadline
  have h := h.step ⟨undisturbed_exec rfl (by rintro l ⟨⟩; rfl) (by exact ⟨rfl, _, rfl, rfl, id⟩),
    TimedStep.execute () .lead rfl⟩
  have h := h.step ⟨undisturbed_act rfl (by simp) (by exact ⟨rfl, _, rfl, rfl, id⟩),
    TimedStep.segment rfl rfl (.lead rfl (.read [(some 3, some ping)] rfl rfl))⟩
  have hopen {now : ℚ} : ¬ Job.Expired (⟨"j", (), 0, none⟩ : Job Unit) now := by
    rw [Job.not_expired_iff]
    simp
  have h := h.step ⟨undisturbed_act rfl (by simp) (by exact ⟨rfl, _, rfl, rfl, id⟩),
    TimedStep.act _ _ (Step.act () _ _ rfl (.lead rfl
      (.startUncapped 3 ping [] _ rfl (by simp [ping]) decode_ping_oneSlot rfl)))
    (timely_of_some decode_ping_oneSlot hopen (by simp))⟩
  refine hconclude h₀ ⟨⟨⟨rfl, _, rfl, rfl, id⟩, ?_⟩, ?_, rfl⟩ h rfl ?_ ?_
  · exact fun w' hne => absurd (Subsingleton.elim w' ()) hne
  · rintro l ⟨⟩
    rfl
  · simp [lateSecond, queueTrace]
  · simp [lateSecond, queueTrace]

end Lone

end RedisSemaphore.Dispatch
