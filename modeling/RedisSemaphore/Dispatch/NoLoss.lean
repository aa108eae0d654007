import RedisSemaphore.Dispatch.System

/-!
# No accepted job is lost

A job is settled once its reply was pushed, a worker has judged it expired, or nobody can decode it.
Every command that takes an entry out of the pending list or out of the stream names a settled
entry, or settles it by the same transaction. The one exception is `XGROUP DELCONSUMER`, which
discards whatever the consumer has pending when it executes. `no_job_lost` holds of every run in
which that is nothing.
-/

namespace RedisSemaphore.Dispatch

open Redis Transition

variable {W : Type*} {π : Type} {cfg : Config W π}

/-! ## The law -/

/-- Some worker has judged the entry to be past its deadline. -/
def Judged (tr : List (Event W)) (id : ℕ) : Prop :=
  ∃ w, Event.act w (.judge id) ∈ tr

/-- Nothing is owed to whoever submitted the entry. -/
def Settled (cfg : Config W π) (tr : List (Event W)) (s : Server W) (id : ℕ) : Prop :=
  ∀ fields job, Event.append id fields ∈ tr → decode cfg.python fields = some job →
    Judged tr id ∨ job.id ∈ s.replies

/-- The entry is in the stream and will be delivered, or delivered again. -/
def Reachable (s : Server W) (id : ℕ) : Prop :=
  (s.stream.fieldsOf id).isSome ∧
    (s.stream.lastDelivered < id ∨ id ∈ s.stream.pendingIds)

/-- The command takes the entry out of the stream or of the pending list. -/
def Removes (id : ℕ) : Command W → Prop
  | .ack entry => entry = id
  | .del entry => entry = id
  | .finish _ entry => entry = id
  | _ => False

/-- A deleted consumer has nothing pending at that moment. -/
def Spares (s : World W) (e : Event W) : Prop :=
  ∀ w name, e.executes = some (w, .delConsumer name) → ¬ s.server.stream.HasPending name

/-! ## One command -/

/-- A command that only shrinks the pending list, and keeps this entry in it, loses nothing. -/
theorem reachable_of_shrinks {s : Server W} {stream : StreamKey W Fields} {id : ℕ}
    (h : Reachable s id) (hs : s.stream.Shrinks stream)
    (hkeep : id ∈ s.stream.pendingIds → id ∈ stream.pendingIds) :
    Reachable { s with stream := stream } id := by
  refine ⟨?_, h.2.imp ?_ hkeep⟩
  · have hlive := h.1
    rw [StreamKey.fieldsOf] at hlive ⊢
    rw [hs.entries]
    exact hlive
  · intro hnew
    exact hs.lastDelivered.trans_lt hnew

/-- Every other command leaves a reachable entry reachable. -/
theorem reachable_exec [DecidableEq W] {s : Server W} {w : W} {cmd : Command W} {id : ℕ}
    (h : Reachable s id) (hremoves : ¬ Removes id cmd)
    (hspares : ∀ name, cmd = .delConsumer name → ¬ s.stream.HasPending name) :
    Reachable (exec cfg w s cmd).1 id := by
  -- most commands only shrink the pending list; those that remove an entry name it
  cases cmd with
  | acquire mutex =>
    rw [exec]
    split <;> exact h
  | release mutex =>
    rw [exec]
    split <;> exact h
  | ensureGroup =>
    exact reachable_of_shrinks h StreamKey.shrinks_createGroup fun hp => by simpa using hp
  | time => exact h
  | autoclaim start =>
    rw [exec]
    split
    · exact h
    · rename_i stream es cursor hclaim
      obtain ⟨hshrinks, hkeep, -⟩ := StreamKey.autoclaim_eq_some hclaim
      exact reachable_of_shrinks h hshrinks fun hp => hkeep id hp h.1
  | infoConsumers =>
    rw [exec]
    split <;> exact h
  | delConsumer name =>
    have hkeep := StreamKey.pendingIds_delConsumer (hspares name rfl)
    exact reachable_of_shrinks h StreamKey.shrinks_delConsumer fun hp => hkeep.symm ▸ hp
  | readOwn count =>
    rw [exec]
    split
    · exact h
    · rename_i stream es hread
      obtain ⟨hshrinks, hsame, -⟩ := StreamKey.readOwn_eq_some hread
      exact reachable_of_shrinks h hshrinks fun hp => hsame.symm ▸ hp
  | readNew =>
    rw [exec]
    split
    · exact h
    · rename_i stream es hread
      obtain ⟨hes, hentries, -, hpending, hlast⟩ := StreamKey.readNew_eq_some hread
      have hlive := h.1
      refine ⟨by simpa only [StreamKey.fieldsOf, hentries] using hlive, ?_⟩
      simp only [hpending, hlast]
      rcases h.2 with hnew | hp
      · -- an entry the read position has passed is among the delivered
        refine or_iff_not_imp_left.mpr fun hpassed => List.mem_append_right _ ?_
        obtain ⟨fields, hfields⟩ := Option.isSome_iff_exists.mp hlive
        rw [StreamKey.fieldsOf_eq_some] at hfields
        rw [not_lt, hes] at hpassed
        rw [hes]
        exact List.mem_map_of_mem (f := StreamEntry.id)
          (StreamKey.mem_unread hfields hnew hpassed)
      · exact Or.inr (List.mem_append_left _ hp)
  | ack entry =>
    refine reachable_of_shrinks h StreamKey.shrinks_ack fun hp => ?_
    exact StreamKey.mem_pendingIds_ack.mpr ⟨hp, fun heq => hremoves heq.symm⟩
  | del entry =>
    exact ⟨StreamKey.isSome_fieldsOf_del h.1 fun heq => hremoves heq.symm, h.2⟩
  | handBack entries =>
    exact reachable_of_shrinks h StreamKey.shrinks_claim fun hp =>
      StreamKey.mem_pendingIds_claim hp h.1
  | touch entries =>
    exact reachable_of_shrinks h StreamKey.shrinks_claim fun hp =>
      StreamKey.mem_pendingIds_claim hp h.1
  | finish jobId entry =>
    have hne : id ≠ entry := fun heq => hremoves heq.symm
    have hack := reachable_of_shrinks h (StreamKey.shrinks_ack) fun hp =>
      StreamKey.mem_pendingIds_ack.mpr ⟨hp, hne⟩
    exact ⟨StreamKey.isSome_fieldsOf_del hack.1 hne, hack.2⟩

/-! ## What the workers know -/

section Knowledge

variable (cfg) (tr : List (Event W)) (s : Server W)

/-- The entry has been appended already and is settled. -/
def Gone (id : ℕ) : Prop := id ≤ s.stream.lastId ∧ Settled cfg tr s id

/-- The entry has been appended already, and its job has this identifier. -/
def IsJob (id : ℕ) (jobId : String) : Prop :=
  id ≤ s.stream.lastId ∧ ∀ fields, Event.append id fields ∈ tr →
    ∃ job, decode cfg.python fields = some job ∧ job.id = jobId

/-- Only settled entries are removed, and only jobs of their entry finished. -/
def Justified : Command W → Prop
  | .ack entry => Gone cfg tr s entry
  | .del entry => Gone cfg tr s entry
  | .finish jobId entry => IsJob cfg tr s entry jobId
  | _ => True

/-- A delivery reports what was appended, and reports no fields of a settled entry only. -/
def DeliveryOk : Delivery → Prop
  | (none, _) => True
  | (some id, none) => Gone cfg tr s id
  | (some id, some fields) => id ≤ s.stream.lastId ∧ Event.append id fields ∈ tr

/-- The entries of a reply, where it has any. -/
def ReplyOk : Reply W → Prop
  | .entries es => ∀ d ∈ es, DeliveryOk cfg tr s d
  | .claimed es _ => ∀ d ∈ es, DeliveryOk cfg tr s d
  | _ => True

/-- The entries in the hand of the lead loop. -/
def PcOk : LeadPc W → Prop
  | .inspecting found => ∀ d ∈ found, DeliveryOk cfg tr s d
  | .pruning _ found => ∀ d ∈ found, DeliveryOk cfg tr s d
  | .batch rest => ∀ d ∈ rest, DeliveryOk cfg tr s d
  | .acking entry _ rest => Gone cfg tr s entry ∧ ∀ d ∈ rest, DeliveryOk cfg tr s d
  | .deleting entry rest => Gone cfg tr s entry ∧ ∀ d ∈ rest, DeliveryOk cfg tr s d
  | .capping entry jobId rest => IsJob cfg tr s entry jobId ∧ ∀ d ∈ rest, DeliveryOk cfg tr s d
  | .waiting _ rest => ∀ d ∈ rest, DeliveryOk cfg tr s d
  | _ => True

/-- What a lead loop holds: the batch at its program counter, and a reply it has yet to read. -/
structure LeadOk (l : Lead W) : Prop where
  pc : PcOk cfg tr s l.pc
  reply : ∀ r, l.reply = some r → ReplyOk cfg tr s r

/-- A worker holds nothing that is not accounted for: what its loop has read, what its tasks run,
and the commands both have yet to send. -/
structure WorkerOk (k : Worker W) : Prop where
  lead : ∀ l, k.lead = some l → LeadOk cfg tr s l
  tasks : ∀ t ∈ k.tasks, IsJob cfg tr s t.entry t.jobId

end Knowledge

/-! ### Knowledge lasts -/

/-- The trace and the server have gone on. -/
structure Later (tr : List (Event W)) (s : Server W) (tr' : List (Event W)) (s' : Server W) :
    Prop where
  trace : ∀ e ∈ tr, e ∈ tr'
  appended : ∀ id fields, Event.append id fields ∈ tr' →
    Event.append id fields ∈ tr ∨ s.stream.lastId < id
  replies : ∀ jobId ∈ s.replies, jobId ∈ s'.replies
  lastId : s.stream.lastId ≤ s'.stream.lastId

section Later

variable {tr tr' : List (Event W)} {s s' : Server W} (h : Later tr s tr' s')

include h

/-- What is gone stays gone. -/
theorem Gone.later {id : ℕ} (hg : Gone cfg tr s id) : Gone cfg tr' s' id := by
  refine ⟨hg.1.trans h.lastId, fun fields job happ hjob => ?_⟩
  rcases h.appended id fields happ with happ | hnew
  · refine (hg.2 fields job happ hjob).imp ?_ (h.replies job.id)
    rintro ⟨w, hw⟩
    exact ⟨w, h.trace _ hw⟩
  · have hle := hg.1
    omega

/-- An entry stays the entry of its job, or is gone. -/
theorem IsJob.later {id : ℕ} {jobId : String} (hj : IsJob cfg tr s id jobId) :
    IsJob cfg tr' s' id jobId := by
  refine ⟨hj.1.trans h.lastId, fun fields happ => ?_⟩
  rcases h.appended id fields happ with happ | hnew
  · exact hj.2 fields happ
  · have hle := hj.1
    omega

/-- A command that was justified when it was built is justified when it executes. -/
theorem Justified.later {cmd : Command W} (hj : Justified cfg tr s cmd) :
    Justified cfg tr' s' cmd := by
  cases cmd with
  | ack entry => exact Gone.later h hj
  | del entry => exact Gone.later h hj
  | finish jobId entry => exact IsJob.later h hj
  | _ => trivial

/-- So is what was delivered. -/
theorem DeliveryOk.later {d : Delivery} (hd : DeliveryOk cfg tr s d) :
    DeliveryOk cfg tr' s' d := by
  match d, hd with
  | (none, _), _ => trivial
  | (some id, none), hd => exact Gone.later h hd
  | (some id, some fields), hd => exact ⟨hd.1.trans h.lastId, h.trace _ hd.2⟩

/-- So is what a reply in flight says. -/
theorem ReplyOk.later {r : Reply W} (hr : ReplyOk cfg tr s r) : ReplyOk cfg tr' s' r := by
  cases r with
  | entries es => exact fun d hd => (hr d hd).later h
  | claimed es cursor => exact fun d hd => (hr d hd).later h
  | _ => trivial

/-- So is the batch at a program counter. -/
theorem PcOk.later {pc : LeadPc W} (hp : PcOk cfg tr s pc) : PcOk cfg tr' s' pc := by
  cases pc with
  | inspecting found => exact fun d hd => (hp d hd).later h
  | pruning dead found => exact fun d hd => (hp d hd).later h
  | batch rest => exact fun d hd => (hp d hd).later h
  | acking entry thenDel rest => exact ⟨hp.1.later h, fun d hd => (hp.2 d hd).later h⟩
  | deleting entry rest => exact ⟨hp.1.later h, fun d hd => (hp.2 d hd).later h⟩
  | capping entry jobId rest => exact ⟨hp.1.later h, fun d hd => (hp.2 d hd).later h⟩
  | waiting t rest => exact fun d hd => (hp d hd).later h
  | _ => trivial

/-- So is all that a worker holds. -/
theorem WorkerOk.later {k : Worker W} (hk : WorkerOk cfg tr s k) : WorkerOk cfg tr' s' k := by
  refine ⟨fun l hl => ⟨(hk.lead l hl).pc.later h, fun r hr => ?_⟩, fun t ht => ?_⟩
  · exact ((hk.lead l hl).reply r hr).later h
  · exact (hk.tasks t ht).later h

end Later

/-! ### Knowledge comes from the server -/

section Local

variable {tr : List (Event W)} {s : Server W} {k : Worker W} {l : Lead W}

/-- A move of the program counter takes its entries along. -/
theorem leadOk_goto {pc : LeadPc W} (hpc : PcOk cfg tr s pc) : LeadOk cfg tr s (l.goto pc) :=
  ⟨hpc, fun _ hr => nomatch hr⟩

/-- Only the lead loop changes. -/
theorem workerOk_leadTo {k k' : Worker W} {pc : LeadPc W} (hk : WorkerOk cfg tr s k)
    (htasks : k'.tasks = k.tasks) (hpc : PcOk cfg tr s pc) :
    WorkerOk cfg tr s (k'.leadTo l pc) := by
  refine ⟨fun l' hl' => ?_, fun t ht => hk.tasks t (htasks ▸ ht)⟩
  obtain rfl := Option.some.inj hl'
  exact leadOk_goto hpc

/-- On the way out the loop holds nothing any more. -/
theorem workerOk_exit {k' : Worker W} {rest : List Delivery} (hk : WorkerOk cfg tr s k)
    (htasks : k'.tasks = k.tasks) : WorkerOk cfg tr s (k'.exit l rest) := by
  rw [Worker.exit]
  split
  · exact workerOk_leadTo hk htasks trivial
  · exact ⟨fun l' hl' => (by cases hl'), fun t ht => hk.tasks t (htasks ▸ ht)⟩

/-- After a hand-back it holds the rest of the batch, or nothing. -/
theorem workerOk_goOn {k' : Worker W} {next : Next} (hk : WorkerOk cfg tr s k)
    (htasks : k'.tasks = k.tasks) : WorkerOk cfg tr s (k'.goOn l next) := by
  cases next with
  | exit rest => exact workerOk_exit hk htasks
  | handRest rest =>
    rw [Worker.goOn, Worker.handRest]
    split
    · exact workerOk_exit hk htasks
    · exact workerOk_leadTo hk htasks trivial

/-- A batch that was delivered is held. -/
theorem workerOk_takeBatch {es : List Delivery} (hk : WorkerOk cfg tr s k)
    (hes : ∀ d ∈ es, DeliveryOk cfg tr s d) : WorkerOk cfg tr s (k.takeBatch l es) :=
  workerOk_leadTo hk rfl hes

/-- So is what a page found. -/
theorem workerOk_reclaimed {es : List Delivery} (hk : WorkerOk cfg tr s k)
    (hes : ∀ d ∈ es, DeliveryOk cfg tr s d) : WorkerOk cfg tr s (k.reclaimed l es) := by
  rw [Worker.reclaimed]
  split
  · exact workerOk_leadTo hk rfl trivial
  · exact workerOk_takeBatch hk hes

/-- So is what a page found, while dead consumers are removed. -/
theorem workerOk_prune {es : List Delivery} {dead : List W} (hk : WorkerOk cfg tr s k)
    (hes : ∀ d ∈ es, DeliveryOk cfg tr s d) : WorkerOk cfg tr s (k.prune l es dead) := by
  cases dead with
  | nil => exact workerOk_reclaimed hk hes
  | cons name dead => exact workerOk_leadTo hk rfl hes

/-- A handler starts with the job of its entry. -/
theorem workerOk_start {entry : ℕ} {jobId : String} {rest : List Delivery}
    (hk : WorkerOk cfg tr s k) (hjob : IsJob cfg tr s entry jobId)
    (hrest : ∀ d ∈ rest, DeliveryOk cfg tr s d) :
    WorkerOk cfg tr s (k.start l entry jobId rest) := by
  refine ⟨fun l' hl' => ?_, fun t ht => ?_⟩
  · obtain rfl := Option.some.inj hl'
    exact leadOk_goto hrest
  · rcases List.mem_append.mp ht with ht | ht
    · exact hk.tasks t ht
    · obtain rfl := List.mem_singleton.mp ht
      exact hjob

/-- What a reply leaves to use was in the reply. -/
theorem mem_of_mem_usable {snapshot : Finset ℕ} {es : List Delivery} {d : Delivery}
    (h : d ∈ usable snapshot es) : d ∈ es :=
  List.mem_of_mem_filter h

end Local

/-! ### Steps of a worker -/

section Steps

variable {tr : List (Event W)} {s : Server W} {w : W} {k k' : Worker W} {note : Note W}

/-- What a worker holds justifies the command it sends next. -/
theorem WorkerOk.justified (hk : WorkerOk cfg tr s k) {co : Co} {cmd : Command W}
    (hcmd : k.command co = some cmd) : Justified cfg tr s cmd := by
  cases co with
  | run =>
    rw [Worker.command] at hcmd
    split at hcmd
    · obtain rfl := Option.some.inj hcmd
      trivial
    · cases hcmd
  | touch =>
    rw [Worker.command] at hcmd
    split at hcmd
    · obtain rfl := Option.some.inj hcmd
      trivial
    · cases hcmd
  | task t =>
    obtain ⟨task, htask, hcmd⟩ := Option.bind_eq_some_iff.mp hcmd
    have hjob := hk.tasks task (List.mem_of_getElem? htask)
    rw [Task.command] at hcmd
    split at hcmd
    · obtain rfl := Option.some.inj hcmd
      exact hjob
    · obtain rfl := Option.some.inj hcmd
      trivial
    · cases hcmd
  | lead =>
    obtain ⟨l, hl, hlcmd⟩ := Option.bind_eq_some_iff.mp hcmd
    have hpc := (hk.lead l hl).pc
    cases cmd with
    | ack entry =>
      obtain ⟨thenDel, rest, heq⟩ := Lead.pc_of_command_ack hlcmd
      rw [heq] at hpc
      exact hpc.1
    | del entry =>
      obtain ⟨rest, heq⟩ := Lead.pc_of_command_del hlcmd
      rw [heq] at hpc
      exact hpc.1
    | finish jobId entry => exact absurd hlcmd Lead.command_ne_finish
    | _ => trivial

/-- What a worker is told fits what was appended under the identifier. -/
theorem isJob_of_delivery {id : ℕ} {fields : Fields} {job : Job π}
    (huniq : ∀ fields', Event.append id fields' ∈ tr → fields' = fields)
    (hd : DeliveryOk cfg tr s (some id, some fields)) (hjob : decode cfg.python fields = some job) :
    IsJob cfg tr s id job.id := by
  refine ⟨hd.1, fun fields' happ => ⟨job, ?_, rfl⟩⟩
  rw [huniq fields' happ, hjob]

/-- A lead loop keeps to what it knows. The step that judges an entry is part of the trace, and an
identifier is appended once. -/
theorem workerOk_leadStep [DecidableEq W] {l : Lead W} (hk : WorkerOk cfg tr s k)
    (hl : k.lead = some l) (htrace : ∀ entry, note = .judge entry → Judged tr entry)
    (huniq : ∀ id fields fields', Event.append id fields ∈ tr → Event.append id fields' ∈ tr →
      fields' = fields)
    (hstep : LeadStep cfg w k l note k') : WorkerOk cfg tr s k' := by
  obtain ⟨hpc, hreply⟩ := hk.lead l hl
  -- what the loop has in hand came with a reply, and goes on from place to place; a drop has its
  -- reason in the fields that came with it, which are the ones that were appended
  cases hstep with
  | ensured ret r hpc' hreply' =>
    cases ret <;> exact workerOk_leadTo hk rfl trivial
  | leave hpc' hover => exact workerOk_exit hk rfl
  | claimed snapshot es cursor hpc' hreply' =>
    exact workerOk_reclaimed hk fun d hd => hreply _ hreply' d (mem_of_mem_usable hd)
  | inspect snapshot es cursor hpc' hreply' =>
    exact workerOk_leadTo hk rfl fun d hd => hreply _ hreply' d (mem_of_mem_usable hd)
  | inspected found infos hpc' hreply' =>
    rw [hpc'] at hpc
    exact workerOk_prune hk hpc
  | inspectedNone found hpc' hreply' =>
    rw [hpc'] at hpc
    exact workerOk_reclaimed hk hpc
  | pruned name dead found r hpc' hreply' =>
    rw [hpc'] at hpc
    exact workerOk_prune hk hpc
  | collected snapshot es hpc' hreply' =>
    rw [Worker.collected]
    split
    · exact workerOk_leadTo hk rfl trivial
    · exact workerOk_takeBatch hk fun d hd => hreply _ hreply' d (mem_of_mem_usable hd)
  | read es hpc' hreply' => exact workerOk_takeBatch hk (hreply _ hreply')
  | skipNil fields rest hpc' =>
    rw [hpc'] at hpc
    exact workerOk_leadTo hk rfl fun d hd => hpc d (List.mem_cons_of_mem _ hd)
  | dropDeleted entry fields rest hpc' hempty =>
    rw [hpc'] at hpc
    refine workerOk_leadTo hk rfl ⟨?_, fun d hd => hpc d (List.mem_cons_of_mem _ hd)⟩
    have hhead := hpc _ List.mem_cons_self
    cases fields with
    | none => exact hhead
    | some fields =>
      obtain rfl : fields = [] := hempty
      refine ⟨hhead.1, fun fields' job happ hjob => ?_⟩
      rw [huniq _ _ _ hhead.2 happ] at hjob
      cases hjob
  | dropMalformed entry fields rest hpc' hfields hjob =>
    rw [hpc'] at hpc
    refine workerOk_leadTo hk rfl ⟨?_, fun d hd => hpc d (List.mem_cons_of_mem _ hd)⟩
    have hhead := hpc _ List.mem_cons_self
    refine ⟨hhead.1, fun fields' job happ hjob' => ?_⟩
    rw [huniq _ _ _ hhead.2 happ, hjob] at hjob'
    cases hjob'
  | dropExpired entry fields rest job hpc' hfields hjob hdeadline =>
    rw [hpc'] at hpc
    refine workerOk_leadTo hk rfl ⟨?_, fun d hd => hpc d (List.mem_cons_of_mem _ hd)⟩
    have hhead := hpc _ List.mem_cons_self
    exact ⟨hhead.1, fun _ _ _ _ => Or.inl (htrace entry rfl)⟩
  | acked entry rest r hpc' hreply' =>
    rw [hpc'] at hpc
    exact workerOk_leadTo hk rfl hpc
  | ackedDeleted entry rest r hpc' hreply' =>
    rw [hpc'] at hpc
    exact workerOk_leadTo hk rfl hpc.2
  | deleted entry rest r hpc' hreply' =>
    rw [hpc'] at hpc
    exact workerOk_leadTo hk rfl hpc.2
  | startUncapped entry fields rest job hpc' hfields hjob hcap =>
    rw [hpc'] at hpc
    have hhead := hpc _ List.mem_cons_self
    refine workerOk_start hk (isJob_of_delivery (fun _ => huniq _ _ _ hhead.2) hhead hjob) ?_
    exact fun d hd => hpc d (List.mem_cons_of_mem _ hd)
  | cap entry fields rest job m hpc' hfields hjob hcap =>
    rw [hpc'] at hpc
    have hhead := hpc _ List.mem_cons_self
    refine workerOk_leadTo hk rfl ⟨isJob_of_delivery (fun _ => huniq _ _ _ hhead.2) hhead hjob, ?_⟩
    exact fun d hd => hpc d (List.mem_cons_of_mem _ hd)
  | startCapped entry jobId rest m hpc' hcap hroom =>
    rw [hpc'] at hpc
    exact workerOk_start hk hpc.1 hpc.2
  | settled t task rest hpc' htask hsettled hstays =>
    rw [hpc'] at hpc
    exact workerOk_leadTo hk rfl hpc
  | abandon t task rest hpc' htask hopen hover => exact workerOk_leadTo hk rfl trivial
  | waitCancelled t task rest hpc' htask hsettled => exact workerOk_exit hk rfl
  | abandoned t task raising rest hpc' htask hended hstays => exact workerOk_goOn hk rfl
  | unwound t task rest hpc' htask hended => exact workerOk_exit hk rfl
  | handed entries next r hpc' hreply' => exact workerOk_goOn hk rfl
  | handFailed entries next hpc' => exact workerOk_goOn hk rfl
  | handCancelled entries locked next hpc' => exact workerOk_exit hk rfl
  | failed rest hpc' => exact workerOk_exit hk rfl
  | released r hpc' hreply' => exact ⟨fun l' hl' => (by cases hl'), hk.tasks⟩
  | releaseFailed hpc' => exact ⟨fun l' hl' => (by cases hl'), hk.tasks⟩
  | _ => exact workerOk_leadTo hk rfl trivial

/-- The other coroutines start no jobs. -/
theorem workerOk_taskStep {t : ℕ} {task : Task W} (hk : WorkerOk cfg tr s k)
    (htask : k.tasks[t]? = some task) (hstep : TaskStep k t task note k') :
    WorkerOk cfg tr s k' := by
  have hjob := hk.tasks task (List.mem_of_getElem? htask)
  have hset : ∀ (k₁ : Worker W) (task' : Task W), k₁.lead = k.lead → k₁.tasks = k.tasks →
      task'.entry = task.entry → task'.jobId = task.jobId →
      WorkerOk cfg tr s (k₁.setTask t task') := by
    intro k₁ task' hlead htasks hentry hjobId
    refine ⟨fun l hl => hk.lead l (hlead ▸ hl), fun t' ht' => ?_⟩
    rw [Worker.setTask, htasks] at ht'
    rcases List.mem_or_eq_of_mem_set ht' with ht' | rfl
    · exact hk.tasks t' ht'
    · rw [hentry, hjobId]
      exact hjob
  cases hstep <;> exact hset _ _ rfl rfl rfl rfl

/-- The elections hold no entries. -/
theorem workerOk_runStep (hk : WorkerOk cfg tr s k) (hstep : RunStep k note k') :
    WorkerOk cfg tr s k' := by
  cases hstep with
  | won mutex hasking =>
    refine ⟨fun l hl => ?_, hk.tasks⟩
    obtain rfl := Option.some.inj hl
    exact ⟨trivial, fun r hr => nomatch hr⟩
  | loseMutex l hlead =>
    refine ⟨fun l' hl' => ?_, hk.tasks⟩
    obtain rfl := Option.some.inj hl'
    obtain ⟨hpc, hreply⟩ := hk.lead l hlead
    exact ⟨hpc, hreply⟩
  | _ => exact ⟨hk.lead, hk.tasks⟩

/-- Nor does the touch loop. -/
theorem workerOk_touchStep (hk : WorkerOk cfg tr s k) (hstep : TouchStep k note k') :
    WorkerOk cfg tr s k' := by
  cases hstep <;> exact ⟨hk.lead, hk.tasks⟩

/-- Every segment of a worker hands on only what it was handed, and judges an entry before it
drops it. -/
theorem workerOk_step [DecidableEq W] (hk : WorkerOk cfg tr s k)
    (htrace : ∀ entry, note = .judge entry → Judged tr entry)
    (huniq : ∀ id fields fields', Event.append id fields ∈ tr → Event.append id fields' ∈ tr →
      fields' = fields)
    (hstep : WorkerStep cfg w k note k') : WorkerOk cfg tr s k' := by
  cases hstep with
  | lead hlead hstep => exact workerOk_leadStep hk hlead htrace huniq hstep
  | task htask hstep => exact workerOk_taskStep hk htask hstep
  | run hstep => exact workerOk_runStep hk hstep
  | touch hstep => exact workerOk_touchStep hk hstep

end Steps

/-! ## The invariant -/

/-- Entries are appended once and not forgotten, the workers know what they do, and the law
holds. -/
structure Kept (cfg : Config W π) (tr : List (Event W)) (s : World W) : Prop where
  old : ∀ id fields, Event.append id fields ∈ tr → id ≤ s.server.stream.lastId
  unique : ∀ id fields fields', Event.append id fields ∈ tr → Event.append id fields' ∈ tr →
    fields' = fields
  entries : ∀ e ∈ s.server.stream.entries, Event.append e.id e.fields ∈ tr
  law : ∀ id fields, Event.append id fields ∈ tr →
    Settled cfg tr s.server id ∨ Reachable s.server id
  workers : ∀ w, WorkerOk cfg tr s.server (s.workers w)
  stray : ∀ w cmd, (w, cmd) ∈ s.stray → Justified cfg tr s.server cmd

section Invariant

variable {tr : List (Event W)} {s s' : World W} {w : W} {cmd : Command W} {e : Event W}

/-- What a delivery from the pending list reports. -/
theorem Kept.deliveryOk (h : Kept cfg tr s) {id : ℕ} (hid : id ∈ s.server.stream.pendingIds) :
    DeliveryOk cfg tr s.server (some id, s.server.stream.fieldsOf id) := by
  have hle := (StreamKey.le_lastDelivered hid).trans s.server.stream.lastDelivered_le_lastId
  cases hf : s.server.stream.fieldsOf id with
  | none =>
    refine ⟨hle, fun fields job happ hjob => ?_⟩
    rcases h.law id fields happ with hsettled | hreach
    · exact hsettled fields job happ hjob
    · rw [Reachable, hf] at hreach
      cases hreach.1
  | some fields => exact ⟨hle, h.entries _ (StreamKey.fieldsOf_eq_some.mp hf)⟩

/-- The reply of a command, before the others go on. -/
theorem Kept.replyOk [DecidableEq W] (h : Kept cfg tr s) (w : W) (cmd : Command W) :
    ReplyOk cfg tr s.server (exec cfg w s.server cmd).2 := by
  cases cmd with
  | autoclaim start =>
    rw [exec]
    split
    · trivial
    · rename_i stream es cursor hclaim
      obtain ⟨-, -, ids, hids, rfl⟩ := StreamKey.autoclaim_eq_some hclaim
      intro d hd
      obtain ⟨id, hid, rfl⟩ := List.mem_map.mp hd
      have hok := h.deliveryOk (hids.subset hid)
      rw [StreamKey.report]
      split
      · rename_i hf
        exact hf ▸ hok
      · trivial
  | readOwn count =>
    rw [exec]
    split
    · trivial
    · rename_i stream es hread
      obtain ⟨-, -, ids, hids, rfl⟩ := StreamKey.readOwn_eq_some hread
      intro d hd
      simp only [List.map_map, List.mem_map] at hd
      obtain ⟨id, hid, rfl⟩ := hd
      exact h.deliveryOk (hids.subset hid)
  | readNew =>
    rw [exec]
    split
    · trivial
    · rename_i stream es hread
      obtain ⟨rfl, -⟩ := StreamKey.readNew_eq_some hread
      intro d hd
      obtain ⟨e, he, rfl⟩ := List.mem_map.mp hd
      have hmem := (StreamKey.mem_of_mem_unread he).1
      exact ⟨s.server.stream.le e hmem, h.entries e hmem⟩
  | acquire mutex =>
    rw [exec]
    split <;> trivial
  | infoConsumers =>
    rw [exec]
    split <;> trivial
  | _ => trivial

variable (tr) in
/-- An event other than an append, after which the server has not gone back. -/
theorem later_of_advances {server : Server W} (happend : ∀ id fields, e ≠ .append id fields)
    (hadvances : s.server.stream.Advances server.stream)
    (hreplies : ∀ jobId ∈ s.server.replies, jobId ∈ server.replies) :
    Later tr s.server (e :: tr) server := by
  refine ⟨fun _ => List.mem_cons_of_mem e, fun id fields happ => ?_, hreplies,
    hadvances.lastId.ge⟩
  rcases List.mem_cons.mp happ with rfl | happ
  · exact absurd rfl (happend id fields)
  · exact Or.inl happ

/-- Every part of the invariant that does not depend on the workers, after such an event. -/
theorem Kept.of_advances (h : Kept cfg tr s) {server : Server W}
    (happend : ∀ id fields, e ≠ .append id fields)
    (hadvances : s.server.stream.Advances server.stream)
    (hreplies : ∀ jobId ∈ s.server.replies, jobId ∈ server.replies)
    (hlaw : ∀ id, Reachable s.server id → Settled cfg (e :: tr) server id ∨ Reachable server id) :
    Kept cfg (e :: tr) { s with server := server } := by
  have hlater := later_of_advances tr happend hadvances hreplies
  have hback : ∀ id fields, Event.append id fields ∈ e :: tr → Event.append id fields ∈ tr :=
    fun id fields happ => (List.mem_cons.mp happ).resolve_left fun heq => happend id fields heq.symm
  refine ⟨?_, ?_, ?_, ?_, fun w => (h.workers w).later hlater,
    fun w cmd hcmd => (h.stray w cmd hcmd).later hlater⟩
  · intro id fields happ
    exact (h.old id fields (hback id fields happ)).trans hlater.lastId
  · intro id fields fields' happ happ'
    exact h.unique id fields fields' (hback _ _ happ) (hback _ _ happ')
  · intro entry hentry
    exact List.mem_cons_of_mem _ (h.entries entry (hadvances.entries entry hentry))
  · intro id fields happ
    have hold := hback id fields happ
    rcases h.law id fields hold with hsettled | hreach
    · exact Or.inl (Gone.later hlater ⟨h.old id fields hold, hsettled⟩).2
    · exact hlaw id hreach

/-- A command executes. -/
theorem Kept.serve [DecidableEq W] (h : Kept cfg tr s) (hjustified : Justified cfg tr s.server cmd)
    (hspares : ∀ name, cmd = .delConsumer name → ¬ s.server.stream.HasPending name)
    (happend : ∀ id fields, e ≠ .append id fields) :
    Kept cfg (e :: tr) { s with server := (exec cfg w s.server cmd).1 } := by
  refine h.of_advances happend (advances_exec cmd) (fun _ => mem_replies_exec) fun id hreach => ?_
  have hlater : Later tr s.server (e :: tr) (exec cfg w s.server cmd).1 :=
    later_of_advances tr happend (advances_exec cmd) fun _ => mem_replies_exec
  by_cases hremoves : Removes id cmd
  · -- whatever removes the entry settles it, or finds it settled
    left
    cases cmd with
    | ack entry => exact (Gone.later hlater ((show entry = id from hremoves) ▸ hjustified)).2
    | del entry => exact (Gone.later hlater ((show entry = id from hremoves) ▸ hjustified)).2
    | finish jobId entry =>
      obtain rfl : entry = id := hremoves
      intro fields job happ hjob
      obtain ⟨job', hjob', rfl⟩ := (IsJob.later hlater hjustified).2 fields happ
      rw [hjob] at hjob'
      obtain rfl := Option.some.inj hjob'
      exact Or.inr List.mem_cons_self
    | _ => exact hremoves.elim
  · exact Or.inr (reachable_exec hreach hremoves hspares)

/-- One worker changes to a state that knows what it does. -/
theorem Kept.update [DecidableEq W] (h : Kept cfg tr s) {k : Worker W}
    (hk : WorkerOk cfg tr s.server k) :
    Kept cfg tr { s with workers := Function.update s.workers w k } := by
  refine ⟨h.old, h.unique, h.entries, h.law, fun w' => ?_, h.stray⟩
  by_cases heq : w' = w
  · subst heq
    simpa only [Function.update_self] using hk
  · simpa only [Function.update_of_ne heq] using h.workers w'

/-- More commands are given up. -/
theorem Kept.give (h : Kept cfg tr s) {cmds : List (Command W)}
    (hcmds : ∀ cmd ∈ cmds, Justified cfg tr s.server cmd) :
    Kept cfg tr { s with stray := cmds.map (w, ·) ++ s.stray } := by
  refine ⟨h.old, h.unique, h.entries, h.law, h.workers, fun w' cmd hcmd => ?_⟩
  rcases List.mem_append.mp hcmd with hcmd | hcmd
  · obtain ⟨cmd', hcmd', heq⟩ := List.mem_map.mp hcmd
    obtain ⟨-, rfl⟩ := Prod.mk.inj heq
    exact hcmds _ hcmd'
  · exact h.stray w' cmd hcmd

/-- A justified reply leaves the worker with nothing that is not accounted for. -/
theorem WorkerOk.answer {k : Worker W} {server : Server W} {r : Reply W} {co : Co}
    (hk : WorkerOk cfg tr server k) (hr : ReplyOk cfg tr server r) :
    WorkerOk cfg tr server (k.answer r co) := by
  cases co with
  | run =>
    rw [Worker.answer]
    split <;> exact ⟨hk.lead, hk.tasks⟩
  | touch =>
    rw [Worker.answer]
    split <;> exact ⟨hk.lead, hk.tasks⟩
  | lead =>
    refine ⟨fun l hl => ?_, hk.tasks⟩
    obtain ⟨l₀, hl₀, rfl⟩ := Option.map_eq_some_iff.mp hl
    refine ⟨(hk.lead l₀ hl₀).pc, fun r' hr' => ?_⟩
    obtain rfl := Option.some.inj hr'
    exact hr
  | task t =>
    refine ⟨hk.lead, fun task htask => ?_⟩
    obtain ⟨i, hi⟩ := List.getElem?_of_mem htask
    simp only [Worker.answer, List.getElem?_modify] at hi
    obtain ⟨task₀, htask₀, rfl⟩ := Option.map_eq_some_iff.mp hi
    have hjob := hk.tasks task₀ (List.mem_of_getElem? htask₀)
    split <;> exact hjob

/-- A new entry is in the stream and has not been delivered. -/
theorem Kept.append (h : Kept cfg tr s) {id : ℕ} {fields : Fields}
    (hnew : s.server.stream.lastId < id) :
    Kept cfg (.append id fields :: tr)
      { s with server := { s.server with stream := s.server.stream.add id fields hnew } } := by
  have hlater : Later tr s.server (.append id fields :: tr)
      { s.server with stream := s.server.stream.add id fields hnew } := by
    refine ⟨fun _ => List.mem_cons_of_mem _, fun id' fields' happ => ?_, fun _ hj => hj, hnew.le⟩
    rcases List.mem_cons.mp happ with heq | happ
    · cases heq
      exact Or.inr hnew
    · exact Or.inl happ
  have hfresh : ∀ fields', Event.append id fields' ∉ tr := fun fields' happ => by
    have hle := h.old id fields' happ
    omega
  refine ⟨?_, ?_, ?_, ?_, fun w => (h.workers w).later hlater,
    fun w cmd hcmd => (h.stray w cmd hcmd).later hlater⟩
  · intro id' fields' happ
    rcases List.mem_cons.mp happ with heq | happ
    · cases heq
      exact le_rfl
    · exact (h.old id' fields' happ).trans hnew.le
  · intro id' f f' hf hf'
    rcases List.mem_cons.mp hf with heq | hf <;> rcases List.mem_cons.mp hf' with heq' | hf'
    · cases heq
      cases heq'
      rfl
    · cases heq
      exact absurd hf' (hfresh f')
    · cases heq'
      exact absurd hf (hfresh f)
    · exact h.unique id' f f' hf hf'
  · intro entry hentry
    rcases List.mem_append.mp hentry with hentry | hentry
    · exact List.mem_cons_of_mem _ (h.entries entry hentry)
    · obtain rfl := List.mem_singleton.mp hentry
      exact List.mem_cons_self
  · intro id' fields' happ
    rcases List.mem_cons.mp happ with heq | happ
    · cases heq
      refine Or.inr ⟨?_, Or.inl (s.server.stream.lastDelivered_le_lastId.trans_lt hnew)⟩
      refine Option.isSome_iff_exists.mpr ⟨fields, StreamKey.fieldsOf_eq_some.mpr ?_⟩
      exact List.mem_append_right _ (List.mem_singleton.mpr rfl)
    · rcases h.law id' fields' happ with hsettled | hreach
      · exact Or.inl (Gone.later hlater ⟨h.old id' fields' happ, hsettled⟩).2
      · refine Or.inr ⟨?_, hreach.2⟩
        obtain ⟨f, hf⟩ := Option.isSome_iff_exists.mp hreach.1
        refine Option.isSome_iff_exists.mpr ⟨f, StreamKey.fieldsOf_eq_some.mpr ?_⟩
        exact List.mem_append_left _ (StreamKey.fieldsOf_eq_some.mp hf)

/-- One step keeps the invariant. -/
theorem Kept.step [DecidableEq W] (h : Kept cfg tr s) (hspares : Spares s e)
    (hstep : Step cfg s e s') : Kept cfg (e :: tr) s' := by
  cases hstep with
  | append id fields hnew => exact h.append hnew
  | advance now hnow =>
    exact h.of_advances (fun _ _ heq => nomatch heq) (.refl _) (fun _ hj => hj) fun _ => Or.inr
  | expire =>
    exact h.of_advances (fun _ _ heq => nomatch heq) (.refl _) (fun _ hj => hj) fun _ => Or.inr
  | exec w co cmd hcmd =>
    have happend : ∀ id fields, Event.exec w co cmd ≠ .append id fields := by
      intro id fields heq
      cases heq
    have hserved := h.serve (w := w) ((h.workers w).justified hcmd)
      (fun name hname => hspares w name (by rw [Event.executes, hname])) happend
    have hreply := h.replyOk w cmd
    have hlater : Later tr s.server (.exec w co cmd :: tr) (exec cfg w s.server cmd).1 :=
      later_of_advances tr happend (advances_exec cmd) fun _ => mem_replies_exec
    exact hserved.update ((hserved.workers w).answer (hreply.later hlater))
  | late w cmd hstray =>
    exact h.serve (h.stray w cmd hstray)
      (fun name hname => hspares w name (by rw [Event.executes, hname]))
      (fun _ _ heq => nomatch heq)
  | act w note k halive hstep =>
    have hkept : Kept cfg (.act w note :: tr) s :=
      h.of_advances (fun _ _ heq => nomatch heq) (.refl _) (fun _ hj => hj) fun _ => Or.inr
    have hk := workerOk_step (hkept.workers w)
      (fun entry hnote => ⟨w, hnote ▸ List.mem_cons_self⟩) hkept.unique hstep
    refine (hkept.give fun cmd hcmd => ?_).update hk
    obtain ⟨co, hco⟩ := hstep.command_of_lost hcmd
    exact (hkept.workers w).justified hco
  | crash w =>
    have hkept : Kept cfg (.crash w :: tr) s :=
      h.of_advances (fun _ _ heq => nomatch heq) (.refl _) (fun _ hj => hj) fun _ => Or.inr
    refine (hkept.give fun cmd hcmd => ?_).update
      ⟨fun l hl => (nomatch hl), fun t ht => (nomatch ht)⟩
    obtain ⟨co, hco⟩ := Worker.exists_of_mem_inFlight hcmd
    exact (hkept.workers w).justified hco

/-- The invariant holds in every run whose deletions of consumers are harmless. -/
theorem kept_of_run [DecidableEq W] (h : ((system cfg).restrict Spares).Run tr s) :
    Kept cfg tr s := by
  refine Transition.System.Run.invariant (I := Kept cfg) ?_ ?_ h
  · rintro s rfl
    refine ⟨fun _ _ h => (nomatch h), fun _ _ _ h => (nomatch h), fun _ h => (nomatch h),
      fun _ _ h => (nomatch h), fun w => ?_, fun _ _ h => (nomatch h)⟩
    exact ⟨fun l hl => (nomatch hl), fun t ht => (nomatch ht)⟩
  · intro tr s e s' _ hkept hstep
    exact hkept.step hstep.1 hstep.2

end Invariant

/-! ## The result -/

/-- **No accepted job is lost** in a run in which no consumer is deleted with entries pending: a job
that nobody has judged expired is unread, or pending, or answered. -/
theorem no_job_lost [DecidableEq W] {tr : List (Event W)} {s : World W}
    (h : ((system cfg).restrict Spares).Run tr s) {id : ℕ} {fields : Fields} {job : Job π}
    (happ : Event.append id fields ∈ tr) (hjob : decode cfg.python fields = some job)
    (hjudged : ∀ w, Event.act w (.judge id) ∉ tr) :
    (s.server.stream.fieldsOf id).isSome ∧
        (s.server.stream.lastDelivered < id ∨ id ∈ s.server.stream.pendingIds) ∨
      job.id ∈ s.server.replies := by
  rcases (kept_of_run h).law id fields happ with hsettled | hreach
  · rcases hsettled fields job happ hjob with ⟨w, hw⟩ | hreply
    · exact absurd hw (hjudged w)
    · exact Or.inr hreply
  · exact Or.inl hreach

/-! ## A consumer deleted too late -/

/-- A job that was appended and delivered is pending. -/
theorem no_job_lost_delivered : ∃ s : World ℕ, ((system plain).restrict Spares).Run
    [.exec 0 .lead .readNew, .append 1 ping, .act 0 .quiet, .act 0 .quiet,
      .exec 0 .lead .ensureGroup, .act 0 .quiet, .exec 0 .run (.acquire 0), .act 0 .quiet] s ∧
    ((s.server.stream.fieldsOf 1).isSome ∧
        (s.server.stream.lastDelivered < 1 ∨ 1 ∈ s.server.stream.pendingIds) ∨
      "j" ∈ s.server.replies) := by
  have h : ((system plain).restrict Spares).Run [] ⟨.initial, fun _ => .initial, []⟩ := .start rfl
  have h := h.step ⟨by rintro _ _ ⟨⟩, Step.act 0 _ _ rfl (.run (.ask rfl rfl))⟩
  have h := h.step ⟨by rintro _ _ ⟨⟩, Step.exec 0 .run _ rfl⟩
  have h := h.step ⟨by rintro _ _ ⟨⟩, Step.act 0 _ _ rfl (.run (.won 0 rfl))⟩
  have h := h.step ⟨by rintro _ _ ⟨⟩, Step.exec 0 .lead _ rfl⟩
  have h := h.step ⟨by rintro _ _ ⟨⟩,
    Step.act 0 _ _ rfl (.lead rfl (.ensured .top _ rfl rfl))⟩
  have h := h.step ⟨by rintro _ _ ⟨⟩,
    Step.act 0 _ _ rfl (.lead rfl (.skip rfl rfl rfl rfl))⟩
  have h := h.step ⟨by rintro _ _ ⟨⟩, Step.append 1 ping (by decide)⟩
  have h := h.step ⟨by rintro _ _ ⟨⟩, Step.exec 0 .lead _ rfl⟩
  exact ⟨_, h, no_job_lost h (by simp) decode_ping
    (by simp)⟩

/-- Worker `0` led the queue long ago. Worker `1` leads and finds nothing pending at it, so it will
delete it; before it does, its Mutex expires and worker `0` leads again and is delivered a job. -/
def lateDeletion : List (Event ℕ) :=
  [.crash 0, .exec 1 .lead (.delConsumer 0),
    .exec 0 .lead .readNew, .act 0 .quiet, .act 0 .quiet, .exec 0 .lead .ensureGroup, .act 0 .quiet,
    .exec 0 .run (.acquire 1), .act 0 .quiet,
    .append 1 ping, .expire,
    .act 1 .quiet, .exec 1 .lead .infoConsumers, .act 1 .quiet, .exec 1 .lead (.autoclaim 0),
    .act 1 .quiet, .exec 1 .lead .time, .act 1 .quiet, .act 1 .quiet, .exec 1 .lead .ensureGroup,
    .act 1 .quiet, .exec 1 .run (.acquire 0), .act 1 .quiet,
    .advance 5000, .expire,
    .act 0 (.lose [.readNew]), .act 0 .quiet, .exec 0 .lead .readNew, .act 0 .quiet, .act 0 .quiet,
    .exec 0 .lead .ensureGroup, .act 0 .quiet, .exec 0 .run (.acquire 0), .act 0 .quiet]

/-- **A lost job.** The deletion executes after the delivery and discards it: the job is delivered,
not pending and not answered, and the worker that has it dies. -/
theorem job_lost_by_late_deletion : ∃ s : World ℕ, (system plain).Run lateDeletion s ∧
    Event.append 1 ping ∈ lateDeletion ∧
    decode plain.python ping = some ⟨"j", (), 0, none⟩ ∧
    (∀ w, Event.act w (.judge 1) ∉ lateDeletion) ∧
    ¬ (s.server.stream.lastDelivered < 1 ∨ 1 ∈ s.server.stream.pendingIds ∨
      "j" ∈ s.server.replies) := by
  have h : (system plain).Run [] ⟨.initial, fun _ => .initial, []⟩ := .start rfl
  -- worker `0` leads, reads nothing, and loses its Mutex
  have h := h.step (Step.act 0 _ _ rfl (.run (.ask rfl rfl)))
  have h := h.step (Step.exec 0 .run _ rfl)
  have h := h.step (Step.act 0 _ _ rfl (.run (.won 0 rfl)))
  have h := h.step (Step.exec 0 .lead _ rfl)
  have h := h.step (Step.act 0 _ _ rfl (.lead rfl (.ensured .top _ rfl rfl)))
  have h := h.step (Step.act 0 _ _ rfl (.lead rfl (.skip rfl rfl rfl rfl)))
  have h := h.step (Step.exec 0 .lead _ rfl)
  have h := h.step (Step.act 0 _ _ rfl (.run (.loseMutex _ rfl)))
  have h := h.step (Step.act 0 _ _ rfl (.lead rfl (.failed [] rfl)))
  have h := h.step Step.expire
  have h := h.step (Step.advance 5000 (by decide))
  -- worker `1` leads and sees worker `0` idle with nothing pending
  have h := h.step (Step.act 1 _ _ rfl (.run (.ask rfl rfl)))
  have h := h.step (Step.exec 1 .run _ rfl)
  have h := h.step (Step.act 1 _ _ rfl (.run (.won 0 rfl)))
  have h := h.step (Step.exec 1 .lead _ rfl)
  have h := h.step (Step.act 1 _ _ rfl (.lead rfl (.ensured .top _ rfl rfl)))
  have h := h.step (Step.act 1 _ _ rfl (.lead rfl (.reclaim rfl rfl rfl)))
  have h := h.step (Step.exec 1 .lead _ rfl)
  have h := h.step (Step.act 1 _ _ rfl (.lead rfl (.timed _ _ rfl rfl)))
  have h := h.step (Step.exec 1 .lead _ rfl)
  have h := h.step (Step.act 1 _ _ rfl (.lead rfl (.inspect _ [] 0 rfl rfl)))
  have h := h.step (Step.exec 1 .lead _ rfl)
  have h := h.step (Step.act 1 _ _ rfl (.lead rfl
    (.inspected _ [⟨0, 0, 5000⟩, ⟨1, 0, 0⟩] rfl rfl)))
  have h := h.step Step.expire
  -- worker `0` leads again and is delivered a job
  have h := h.step (Step.append 1 ping (by decide))
  have h := h.step (Step.act 0 _ _ rfl (.run (.ask rfl rfl)))
  have h := h.step (Step.exec 0 .run _ rfl)
  have h := h.step (Step.act 0 _ _ rfl (.run (.won 1 rfl)))
  have h := h.step (Step.exec 0 .lead _ rfl)
  have h := h.step (Step.act 0 _ _ rfl (.lead rfl (.ensured .top _ rfl rfl)))
  have h := h.step (Step.act 0 _ _ rfl (.lead rfl (.skip rfl rfl rfl rfl)))
  have h := h.step (Step.exec 0 .lead _ rfl)
  -- the deletion arrives
  have h := h.step (Step.exec 1 .lead (.delConsumer 0) rfl)
  have h := h.step (Step.crash 0)
  refine ⟨_, h, by simp [lateDeletion], decode_ping, by simp [lateDeletion], ?_⟩
  decide

end RedisSemaphore.Dispatch
