import RedisSemaphore.Dispatch.Order

/-!
# What a worker knows of its jobs

A worker sees an entry only in the replies of the server, which reports entries with the fields they
were queued with. So whatever handler it starts, and whatever finish it sends, names an entry that
was queued with fields that decode to that job. Nothing is assumed about the commands in flight, and
deleted consumers may have entries pending.
-/

namespace RedisSemaphore.Dispatch

open Redis Transition

variable {W : Type*} {π : Type} (cfg : Config W π) (queued : ℕ → Fields → Prop)

/-- The entry was queued with fields that decode to this job. -/
def Named (entry : ℕ) (jobId : String) : Prop :=
  ∃ fields job, queued entry fields ∧ decode cfg.python fields = some job ∧ job.id = jobId

/-- The job a lead loop has found due for a handler slot. -/
def LeadPc.capped : LeadPc W → Option (ℕ × String)
  | .capping entry jobId _ => some (entry, jobId)
  | _ => none

/-- The fields in hand are the queued ones, and so is the job that waits for a slot. -/
structure LeadTold (l : Lead W) : Prop where
  carried : ∀ id fields, (some id, some fields) ∈ l.carried → queued id fields
  capped : ∀ entry jobId, l.pc.capped = some (entry, jobId) → Named cfg queued entry jobId

/-- Every handler of the worker runs a queued job. -/
structure Told (k : Worker W) : Prop where
  lead : ∀ l, k.lead = some l → LeadTold cfg queued l
  tasks : ∀ task ∈ k.tasks, Named cfg queued task.entry task.jobId

variable {cfg queued}

/-! ## More is queued -/

section Mono

variable {queued' : ℕ → Fields → Prop} (hmono : ∀ id fields, queued id fields → queued' id fields)

include hmono

/-- An entry that was queued stays queued. -/
theorem Named.mono {entry : ℕ} {jobId : String} (h : Named cfg queued entry jobId) :
    Named cfg queued' entry jobId := by
  obtain ⟨fields, job, hqueued, hjob, hid⟩ := h
  exact ⟨fields, job, hmono entry fields hqueued, hjob, hid⟩

/-- So what a worker runs stays a queued job. -/
theorem Told.mono {k : Worker W} (h : Told cfg queued k) : Told cfg queued' k := by
  refine ⟨fun l hl => ⟨?_, ?_⟩, fun task htask => (h.tasks task htask).mono hmono⟩
  · exact fun id fields hmem => hmono id fields ((h.lead l hl).carried id fields hmem)
  · exact fun entry jobId hpc => ((h.lead l hl).capped entry jobId hpc).mono hmono

end Mono

/-! ## The lead loop -/

section Lead

variable {k k₁ k' : Worker W} {l l₁ : Lead W} {note : Note W}

/-- The lead loop goes on with what it has in hand. -/
theorem Told.leadTo {pc : LeadPc W} (h : Told cfg queued k) (hlead : k.lead = some l)
    (htasks : k₁.tasks = k.tasks) (hrest : pc.rest ⊆ l.carried) (hcapped : pc.capped = none) :
    Told cfg queued (k₁.leadTo l₁ pc) := by
  refine ⟨fun l' hl' => ?_, fun task htask => h.tasks task (htasks ▸ htask)⟩
  obtain rfl := Option.some.inj hl'
  refine ⟨fun id fields hmem => ?_, fun entry jobId hpc => ?_⟩
  · rw [Lead.carried_goto] at hmem
    exact (h.lead l hlead).carried id fields (hrest hmem)
  · rw [Lead.goto, hcapped] at hpc
    cases hpc

/-- A worker whose loop is over runs its handlers on. -/
theorem Told.unled (h : Told cfg queued k) (htasks : k₁.tasks = k.tasks) (hlead : k₁.lead = none) :
    Told cfg queued k₁ := by
  refine ⟨fun l hl => ?_, fun task htask => h.tasks task (htasks ▸ htask)⟩
  rw [hlead] at hl
  cases hl

/-- The way out takes no further entry in hand. -/
theorem Told.exit {rest : List Delivery} (h : Told cfg queued k) (hlead : k.lead = some l)
    (htasks : k₁.tasks = k.tasks) : Told cfg queued (k₁.exit l₁ rest) := by
  rw [Worker.exit]
  split
  · exact h.leadTo hlead htasks (List.nil_subset _) rfl
  · exact h.unled htasks rfl

/-- After a hand-back the rest is still what was read. -/
theorem Told.goOn {next : Next} (h : Told cfg queued k) (hlead : k.lead = some l)
    (htasks : k₁.tasks = k.tasks) (hrest : next.rest ⊆ l.carried) :
    Told cfg queued (k₁.goOn l₁ next) := by
  cases next with
  | exit rest => exact h.exit hlead htasks
  | handRest rest =>
    rw [Worker.goOn, Worker.handRest]
    split
    · exact h.exit hlead htasks
    · exact h.leadTo hlead htasks hrest rfl

/-- What a page found is what its reply said. -/
theorem Told.reclaimed {found : List Delivery} (h : Told cfg queued k) (hlead : k.lead = some l)
    (hfound : found ⊆ l.carried) : Told cfg queued (k.reclaimed l₁ found) := by
  rw [Worker.reclaimed]
  split
  · exact h.leadTo hlead rfl (List.nil_subset _) rfl
  · exact h.leadTo hlead rfl hfound rfl

/-- So it is while dead consumers are removed. -/
theorem Told.prune {found : List Delivery} {dead : List W} (h : Told cfg queued k)
    (hlead : k.lead = some l) (hfound : found ⊆ l.carried) :
    Told cfg queued (k.prune l₁ found dead) := by
  cases dead with
  | nil => exact h.reclaimed hlead hfound
  | cons name dead => exact h.leadTo hlead rfl hfound rfl

/-- A handler is started. -/
theorem Told.start {entry : ℕ} {jobId : String} {rest : List Delivery} (h : Told cfg queued k)
    (hlead : k.lead = some l) (hrest : rest ⊆ l.carried) (hjob : Named cfg queued entry jobId) :
    Told cfg queued (k.start l₁ entry jobId rest) := by
  refine ⟨fun l' hl' => ?_, fun task htask => ?_⟩
  · have hled : Told cfg queued (k.leadTo l₁ (.waiting k.tasks.length rest)) :=
      h.leadTo hlead rfl hrest rfl
    exact hled.lead l' hl'
  · rcases List.mem_append.mp htask with hold | hnew
    · exact h.tasks task hold
    · obtain rfl := List.mem_singleton.mp hnew
      exact hjob

/-- **One segment of the lead loop.** -/
theorem Told.leadStep [DecidableEq W] {w : W} (h : Told cfg queued k) (hlead : k.lead = some l)
    (hstep : LeadStep cfg w k l note k') : Told cfg queued k' := by
  have hrest {pc : LeadPc W} {es : List Delivery} (hpc : l.pc = pc) (hes : pc.rest = es) :
      es ⊆ l.carried := hes ▸ hpc ▸ l.rest_subset
  have htail {pc : LeadPc W} {d : Delivery} {es : List Delivery} (hpc : l.pc = pc)
      (hes : pc.rest = d :: es) : es ⊆ l.carried :=
    List.Subset.trans (List.subset_cons_self d es) (hrest hpc hes)
  have hbrought {pc : LeadPc W} {r : Reply W} {es : List Delivery} (hpc : l.pc = pc)
      (hreply : l.reply = some r) (hes : pc.brought r = es) : es ⊆ l.carried :=
    hes ▸ hpc ▸ Lead.brought_subset hreply
  have hnamed {entry : ℕ} {fields : Fields} {rest : List Delivery} {job : Job π}
      (hpc : l.pc = .batch ((some entry, some fields) :: rest))
      (hjob : decode cfg.python fields = some job) : Named cfg queued entry job.id :=
    ⟨fields, job, (h.lead l hlead).carried entry fields (hrest hpc rfl List.mem_cons_self), hjob,
      rfl⟩
  have hnil : ([] : List Delivery) ⊆ l.carried := List.nil_subset _
  cases hstep with
  | ensured ret r hpc hreply => cases ret <;> exact h.leadTo hlead rfl hnil rfl
  | leave hpc hover => exact h.exit hlead rfl
  | reclaim hpc hheld hgo => exact h.leadTo hlead rfl hnil rfl
  | skip hpc hheld hgo hnow => exact h.leadTo hlead rfl hnil rfl
  | timed snapshot r hpc hreply => exact h.leadTo hlead rfl hnil rfl
  | claimed snapshot es cursor hpc hreply => exact h.reclaimed hlead (hbrought hpc hreply rfl)
  | claimedNone snapshot hpc hreply => exact h.leadTo hlead rfl hnil rfl
  | inspect snapshot es cursor hpc hreply =>
    exact h.leadTo hlead rfl (hbrought hpc hreply rfl) rfl
  | inspected found infos hpc hreply => exact h.prune hlead (hrest hpc rfl)
  | inspectedNone found hpc hreply => exact h.reclaimed hlead (hrest hpc rfl)
  | pruned name dead found r hpc hreply => exact h.prune hlead (hrest hpc rfl)
  | collected snapshot es hpc hreply =>
    rw [Worker.collected]
    split
    · exact h.leadTo hlead rfl hnil rfl
    · exact h.leadTo hlead rfl (hbrought hpc hreply rfl) rfl
  | collectedNone snapshot hpc hreply => exact h.leadTo hlead rfl hnil rfl
  | read es hpc hreply => exact h.leadTo hlead rfl (hbrought hpc hreply rfl) rfl
  | readNone hpc hreply => exact h.leadTo hlead rfl hnil rfl
  | batchDone hpc => exact h.leadTo hlead rfl hnil rfl
  | skipNil fields rest hpc => exact h.leadTo hlead rfl (htail hpc rfl) rfl
  | dropDeleted entry fields rest hpc hempty => exact h.leadTo hlead rfl (htail hpc rfl) rfl
  | dropMalformed entry fields rest hpc hfields hjob =>
    exact h.leadTo hlead rfl (htail hpc rfl) rfl
  | dropExpired entry fields rest job hpc hfields hjob hdeadline =>
    exact h.leadTo hlead rfl (htail hpc rfl) rfl
  | acked entry rest r hpc hreply => exact h.leadTo hlead rfl (hrest hpc rfl) rfl
  | ackedDeleted entry rest r hpc hreply => exact h.leadTo hlead rfl (hrest hpc rfl) rfl
  | deleted entry rest r hpc hreply => exact h.leadTo hlead rfl (hrest hpc rfl) rfl
  | startUncapped entry fields rest job hpc hfields hjob hcap =>
    exact h.start hlead (htail hpc rfl) (hnamed hpc hjob)
  | cap entry fields rest job m hpc hfields hjob hcap =>
    -- the job is remembered by its identifier until there is a slot
    refine ⟨fun l' hl' => ?_, h.tasks⟩
    obtain rfl := Option.some.inj hl'
    refine ⟨fun id fields' hmem => ?_, fun entry' jobId hpc' => ?_⟩
    · rw [Lead.carried_goto] at hmem
      exact (h.lead l hlead).carried id fields' (htail hpc rfl hmem)
    · obtain ⟨rfl, rfl⟩ := Prod.mk.inj (Option.some.inj hpc')
      exact hnamed hpc hjob
  | startCapped entry jobId rest m hpc hcap hroom =>
    have hjob := (h.lead l hlead).capped entry jobId (by rw [hpc]; rfl)
    exact h.start hlead (hrest hpc rfl) hjob
  | capLeft entry jobId rest hpc hover => exact h.leadTo hlead rfl (hrest hpc rfl) rfl
  | settled t task rest hpc htask hsettled hstays => exact h.leadTo hlead rfl (hrest hpc rfl) rfl
  | cancelled t task rest hpc htask hback => exact h.leadTo hlead rfl (hrest hpc rfl) rfl
  | abandon t task rest hpc htask hopen hover => exact h.leadTo hlead rfl (hrest hpc rfl) rfl
  | waitCancelled t task rest hpc htask hsettled => exact h.exit hlead rfl
  | waitAbandoned t task rest hpc htask hopen => exact h.leadTo hlead rfl (hrest hpc rfl) rfl
  | abandoned t task raising rest hpc htask hended hstays =>
    cases raising with
    | false => exact h.goOn hlead rfl (hrest hpc rfl)
    | true => exact h.goOn hlead rfl (hrest hpc rfl)
  | abandonedBack t task raising rest hpc htask hback =>
    cases raising with
    | false => exact h.leadTo hlead rfl (hrest hpc rfl) rfl
    | true => exact h.leadTo hlead rfl (hrest hpc rfl) rfl
  | abandonCancelled t raising rest hpc => exact h.leadTo hlead rfl (hrest hpc rfl) rfl
  | unwound t task rest hpc htask hended => exact h.exit hlead rfl
  | locked entries next hpc hfree => exact h.leadTo hlead rfl (hrest hpc rfl) rfl
  | handed entries next r hpc hreply => exact h.goOn hlead rfl (hrest hpc rfl)
  | handFailed entries next hpc => exact h.goOn hlead rfl (hrest hpc rfl)
  | handCancelled entries locked next hpc => exact h.exit hlead rfl
  | failed rest hpc => exact h.exit hlead rfl
  | released r hpc hreply => exact h.unled rfl rfl
  | releaseFailed hpc => exact h.unled rfl rfl

end Lead

/-! ## The other coroutines -/

section Steps

variable {k k' : Worker W} {note : Note W}

/-- A task stays with its job. -/
theorem Told.setTask {k₁ : Worker W} {t : ℕ} {task task' : Task W} (h : Told cfg queued k)
    (htask : k.tasks[t]? = some task) (hlead : k₁.lead = k.lead) (htasks : k₁.tasks = k.tasks)
    (hentry : task'.entry = task.entry) (hjob : task'.jobId = task.jobId) :
    Told cfg queued (k₁.setTask t task') := by
  refine ⟨fun l hl => h.lead l (hlead ▸ hl), fun task₁ hmem => ?_⟩
  rw [Worker.setTask, htasks] at hmem
  rcases List.mem_or_eq_of_mem_set hmem with hold | rfl
  · exact h.tasks task₁ hold
  · rw [hentry, hjob]
    exact h.tasks task (List.mem_of_getElem? htask)

/-- A task keeps its entry and its job. -/
theorem Told.taskStep {t : ℕ} {task : Task W} (h : Told cfg queued k)
    (htask : k.tasks[t]? = some task) (hstep : TaskStep k t task note k') :
    Told cfg queued k' := by
  cases hstep <;> exact h.setTask htask rfl rfl rfl rfl

/-- The elections hand no entries on. -/
theorem Told.runStep (h : Told cfg queued k) (hstep : RunStep k note k') : Told cfg queued k' := by
  cases hstep with
  | won mutex hasking =>
    refine ⟨fun l hl => ?_, h.tasks⟩
    obtain rfl := Option.some.inj hl
    refine ⟨fun id fields hmem => absurd hmem List.not_mem_nil, fun entry jobId hpc => ?_⟩
    cases hpc
  | loseMutex l hlead =>
    refine ⟨fun l' hl' => ?_, h.tasks⟩
    obtain rfl := Option.some.inj hl'
    exact ⟨(h.lead l hlead).carried, (h.lead l hlead).capped⟩
  | _ => exact ⟨h.lead, h.tasks⟩

/-- Nor does the touch loop. -/
theorem Told.touchStep (h : Told cfg queued k) (hstep : TouchStep k note k') :
    Told cfg queued k' := by
  cases hstep <;> exact ⟨h.lead, h.tasks⟩

/-- **One segment of any coroutine.** -/
theorem Told.step [DecidableEq W] {w : W} (h : Told cfg queued k)
    (hstep : WorkerStep cfg w k note k') : Told cfg queued k' := by
  cases hstep with
  | lead hlead hstep => exact h.leadStep hlead hstep
  | task htask hstep => exact h.taskStep htask hstep
  | run hstep => exact h.runStep hstep
  | touch hstep => exact h.touchStep hstep

/-- A finish names the job of its task. -/
theorem Told.finish {co : Co} {jobId : String} {entry : ℕ} (h : Told cfg queued k)
    (hcmd : k.command co = some (.finish jobId entry)) : Named cfg queued entry jobId := by
  cases co with
  | run =>
    rw [Worker.command] at hcmd
    split at hcmd <;> cases hcmd
  | touch =>
    rw [Worker.command] at hcmd
    split at hcmd <;> cases hcmd
  | lead =>
    obtain ⟨l, -, hl⟩ := Option.bind_eq_some_iff.mp hcmd
    exact absurd hl Lead.command_ne_finish
  | task t =>
    obtain ⟨task, htask, hfinish⟩ := Option.bind_eq_some_iff.mp hcmd
    have hjob := h.tasks task (List.mem_of_getElem? htask)
    rcases Task.command_eq hfinish with heq | heq
    · obtain ⟨rfl, rfl⟩ := Command.finish.inj heq
      exact hjob
    · cases heq

end Steps

/-! ## Replies -/

/-- The entries a reply reports with their fields are queued. -/
def ReplyTold (queued : ℕ → Fields → Prop) : Reply W → Prop
  | .entries es => ∀ id fields, (some id, some fields) ∈ es → queued id fields
  | .claimed es _ => ∀ id fields, (some id, some fields) ∈ es → queued id fields
  | _ => True

/-- A reply to a read brings queued entries with their own fields. -/
theorem LeadPc.brought_told {pc : LeadPc W} {r : Reply W} (hr : ReplyTold queued r) {id : ℕ}
    {fields : Fields} (hmem : (some id, some fields) ∈ pc.brought r) : queued id fields := by
  unfold LeadPc.brought at hmem
  split at hmem
  · exact hr id fields (List.mem_of_mem_filter hmem)
  · exact hr id fields (List.mem_of_mem_filter hmem)
  · exact hr id fields hmem
  · exact absurd hmem List.not_mem_nil

/-- A reply reaches a coroutine. -/
theorem Told.answer {k : Worker W} {r : Reply W} {co : Co} (h : Told cfg queued k)
    (hr : ReplyTold queued r) : Told cfg queued (k.answer r co) := by
  cases co with
  | run =>
    rw [Worker.answer]
    split <;> exact ⟨h.lead, h.tasks⟩
  | touch =>
    rw [Worker.answer]
    split <;> exact ⟨h.lead, h.tasks⟩
  | lead =>
    refine ⟨fun l hl => ?_, h.tasks⟩
    obtain ⟨l₀, hl₀, rfl⟩ := Option.map_eq_some_iff.mp hl
    refine ⟨fun id fields hmem => ?_, (h.lead l₀ hl₀).capped⟩
    rcases List.mem_append.mp hmem with hrest | hbrought
    · exact (h.lead l₀ hl₀).carried id fields (l₀.rest_subset hrest)
    · exact LeadPc.brought_told hr hbrought
  | task t =>
    rcases Worker.answer_task (k := k) (r := r) (t := t) with heq | ⟨task, htask, heq⟩
    · rw [heq]
      exact h
    · rw [heq]
      exact h.setTask htask rfl rfl rfl rfl

/-- **The server reports fields as they were queued.** -/
theorem replyTold_exec [DecidableEq W] {w : W} {s : Server W}
    (hentries : ∀ e ∈ s.stream.entries, queued e.id e.fields) (cmd : Command W) :
    ReplyTold queued (exec cfg w s cmd).2 := by
  have hfields {id : ℕ} {fields : Fields} (hf : s.stream.fieldsOf id = some fields) :
      queued id fields := hentries _ (StreamKey.fieldsOf_eq_some.mp hf)
  cases cmd with
  | autoclaim start =>
    rw [exec]
    split
    · trivial
    · rename_i stream es cursor hclaim
      obtain ⟨-, -, ids, -, rfl⟩ := StreamKey.autoclaim_eq_some hclaim
      intro id fields hmem
      obtain ⟨id', -, hreport⟩ := List.mem_map.mp hmem
      rw [StreamKey.report] at hreport
      split at hreport
      · rename_i hf
        cases hreport
        exact hfields hf
      · cases hreport
  | readOwn count =>
    rw [exec]
    split
    · trivial
    · rename_i stream es hread
      obtain ⟨-, -, ids, -, rfl⟩ := StreamKey.readOwn_eq_some hread
      intro id fields hmem
      simp only [List.map_map, List.mem_map] at hmem
      obtain ⟨id', -, heq⟩ := hmem
      obtain ⟨hid, hf⟩ := Prod.mk.inj heq
      obtain rfl := Option.some.inj hid
      exact hfields hf
  | readNew =>
    rw [exec]
    split
    · trivial
    · rename_i stream es hread
      obtain ⟨rfl, -⟩ := StreamKey.readNew_eq_some hread
      intro id fields hmem
      obtain ⟨e, he, heq⟩ := List.mem_map.mp hmem
      obtain ⟨hid, hf⟩ := Prod.mk.inj heq
      obtain rfl := Option.some.inj hid
      obtain rfl := Option.some.inj hf
      exact hentries e (StreamKey.mem_of_mem_unread he).1
  | acquire mutex =>
    rw [exec]
    split <;> trivial
  | infoConsumers =>
    rw [exec]
    split <;> trivial
  | _ => trivial

/-! ## The queue -/

variable (cfg queued) in
/-- What is in the stream is queued, and so is whatever a worker runs or finishes, also by a command
that was given up. -/
structure AllTold (s : World W) : Prop where
  entries : ∀ e ∈ s.server.stream.entries, queued e.id e.fields
  workers : ∀ w, Told cfg queued (s.workers w)
  stray : ∀ w jobId entry, (w, .finish jobId entry) ∈ s.stray → Named cfg queued entry jobId

section System

variable [DecidableEq W] {s s' : World W} {e : Event W}

omit [DecidableEq W] in
/-- More may have been queued. -/
theorem AllTold.mono {queued' : ℕ → Fields → Prop}
    (hmono : ∀ id fields, queued id fields → queued' id fields) (h : AllTold cfg queued s) :
    AllTold cfg queued' s :=
  ⟨fun e he => hmono _ _ (h.entries e he), fun w => (h.workers w).mono hmono,
    fun w jobId entry hmem => (h.stray w jobId entry hmem).mono hmono⟩

omit [DecidableEq W] in
/-- The finishes that a worker gives up. -/
theorem AllTold.give {w : W} {commands : List (Command W)} (h : AllTold cfg queued s)
    (hcommands : ∀ cmd ∈ commands, ∃ co, (s.workers w).command co = some cmd) :
    ∀ w' jobId entry, (w', .finish jobId entry) ∈ commands.map (w, ·) ++ s.stray →
      Named cfg queued entry jobId := by
  intro w' jobId entry hmem
  rcases List.mem_append.mp hmem with hnew | hold
  · obtain ⟨cmd, hcmd, heq⟩ := List.mem_map.mp hnew
    obtain ⟨rfl, rfl⟩ := Prod.mk.inj heq
    obtain ⟨co, hco⟩ := hcommands _ hcmd
    exact (h.workers w).finish hco
  · exact h.stray w' jobId entry hold

/-- **Whatever happens in the queue**, jobs keep their names. -/
theorem AllTold.step (h : AllTold cfg queued s) (hstep : Step cfg s e s')
    (happend : ∀ id fields, e = .append id fields → queued id fields) : AllTold cfg queued s' := by
  have hserve (w : W) (cmd : Command W) :
      ∀ e ∈ (exec cfg w s.server cmd).1.stream.entries, queued e.id e.fields :=
    fun e he => h.entries e ((advances_exec cmd).entries e he)
  cases hstep with
  | append id fields hnew =>
    refine ⟨fun e he => ?_, h.workers, h.stray⟩
    rcases List.mem_append.mp he with hold | hlast
    · exact h.entries e hold
    · obtain rfl := List.mem_singleton.mp hlast
      exact happend id fields rfl
  | advance now hnow => exact ⟨h.entries, h.workers, h.stray⟩
  | expire => exact ⟨h.entries, h.workers, h.stray⟩
  | exec w co cmd hcmd =>
    refine ⟨hserve w cmd, fun w' => ?_, h.stray⟩
    have hanswer : Told cfg queued ((s.workers w).answer (exec cfg w s.server cmd).2 co) :=
      (h.workers w).answer (replyTold_exec h.entries cmd)
    by_cases heq : w' = w
    · subst heq
      simpa only [Function.update_self] using hanswer
    · simpa only [Function.update_of_ne heq] using h.workers w'
  | late w cmd hstray => exact ⟨hserve w cmd, h.workers, h.stray⟩
  | act w note k halive hstep =>
    refine ⟨h.entries, fun w' => ?_, h.give fun cmd hcmd => hstep.command_of_lost hcmd⟩
    have hk := (h.workers w).step hstep
    by_cases heq : w' = w
    · subst heq
      simpa only [Function.update_self] using hk
    · simpa only [Function.update_of_ne heq] using h.workers w'
  | crash w =>
    refine ⟨h.entries, fun w' => ?_, h.give fun cmd hcmd => Worker.exists_of_mem_inFlight hcmd⟩
    by_cases heq : w' = w
    · subst heq
      simp only [Function.update_self]
      exact ⟨fun l hl => absurd hl (by simp [Worker.dead, Worker.initial]),
        fun task htask => absurd htask List.not_mem_nil⟩
    · simpa only [Function.update_of_ne heq] using h.workers w'

/-- Who finishes an entry names its job. -/
theorem AllTold.finish {w : W} {jobId : String} {entry : ℕ} (h : AllTold cfg queued s)
    (hstep : Step cfg s e s') (hexec : e.executes = some (w, .finish jobId entry)) :
    Named cfg queued entry jobId := by
  cases hstep with
  | exec w' co cmd hcmd =>
    obtain ⟨rfl, rfl⟩ := Prod.mk.inj (Option.some.inj hexec)
    exact (h.workers w').finish hcmd
  | late w' cmd hstray =>
    obtain ⟨rfl, rfl⟩ := Prod.mk.inj (Option.some.inj hexec)
    exact h.stray w' jobId entry hstray
  | append | advance | expire | act | crash => cases hexec

end System

end RedisSemaphore.Dispatch
