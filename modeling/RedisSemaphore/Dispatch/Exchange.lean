import RedisSemaphore.Dispatch.Codec
import RedisSemaphore.Dispatch.Told

/-!
# From a submit to its result

One queue from end to end: producers enqueue jobs, workers run them and push their replies, and the
submitters wait at the reply lists. The parts are those of the other modules: the script of
`Producer`, the workers and the network of `World`, and the wait loop of `Submitter`.

A finish in flight delivers the reply that the handler has left; if the worker has run the entry
several times, which of these replies it is stays open. A `BLMOVE` may execute at any time and any
number of times, and its result may be lost; a submitter goes on from the text of some `BLMOVE` that
has executed, or from an exception.

A submit whose deadline Lua's `tostring` would round, in three thousand years, is left out
(`Submit.Printed`).
-/

namespace RedisSemaphore.Dispatch.Exchange

open Redis Transition

/-! ## Reply lists -/

/-- A reply list, from left to right, and when Redis may drop the key. There are no empty lists. -/
structure ReplyList where
  texts : List String
  deadline : ℤ
  ne_nil : texts ≠ []

/-- `LPUSH` and `PEXPIRE`. -/
def push (text : String) (deadline : ℤ) (list : Option ReplyList) : ReplyList where
  texts := text :: (list.map ReplyList.texts).getD []
  deadline := deadline
  ne_nil := List.cons_ne_nil _ _

/-- The reply a `BLMOVE` reads, the oldest one where none has been read before. -/
def ReplyList.right (l : ReplyList) : String := l.texts.getLast l.ne_nil

/-- `BLMOVE` from the right of a list to its left. -/
def ReplyList.rotate (l : ReplyList) : ReplyList where
  texts := l.right :: l.texts.dropLast
  deadline := l.deadline
  ne_nil := List.cons_ne_nil _ _

/-- The element that `BLMOVE` takes is one of the list. -/
theorem ReplyList.right_mem (l : ReplyList) : l.right ∈ l.texts := List.getLast_mem l.ne_nil

/-- Reading does not consume. -/
theorem ReplyList.mem_rotate {l : ReplyList} {text : String} :
    text ∈ l.rotate.texts ↔ text ∈ l.texts := by
  have hsplit : l.texts.dropLast ++ [l.right] = l.texts := List.dropLast_append_getLast l.ne_nil
  conv_rhs => rw [← hsplit]
  rw [rotate, List.mem_cons, List.mem_append, List.mem_singleton, or_comm]

/-- After a push there is the new reply, and those from before. -/
theorem mem_push {text text' : String} {deadline : ℤ} {list : Option ReplyList}
    (h : text' ∈ (push text deadline list).texts) :
    text' = text ∨ ∃ l, list = some l ∧ text' ∈ l.texts := by
  rcases List.mem_cons.mp h with rfl | hold
  · exact Or.inl rfl
  · cases list with
    | none => exact absurd hold List.not_mem_nil
    | some l => exact Or.inr ⟨l, rfl, hold⟩

/-! ## The system -/

/-- What the workers share, and the time to live of a reply list, which is one for all of them.
Payloads and replies are JSON. -/
structure Settings (W : Type*) extends Config W Json where
  replyTtlMs : ℕ
  python_eq : python = Dispatch.python

/-- The queue with its workers, the marker keys, the reply lists by job, the replies that handlers
have left, the replies that have been read and the calls that wait. -/
structure State (W : Type*) where
  world : World W
  markers : String → Option Producer.Marker
  replies : String → Option ReplyList
  outcomes : List (W × ℕ × String)
  reads : List (String × String)
  calls : String → Option (Submitter.Call × Submitter.State Json)

variable {W : Type*}

/-- The queue as producers see it. -/
def State.queue (s : State W) : Producer.Queue W := ⟨s.world.server, s.markers⟩

/-- The server clock. -/
def State.now (s : State W) : ℤ := s.world.server.now

/-- A submit, a step of the queue, the end of a handler, the script that finishes its job, an
expiry, and what a waiting call does. -/
inductive Event (W : Type*)
  | enqueue (time : ℤ) (a : Producer.Submit) (result : Producer.Enqueued)
  | worker (e : Dispatch.Event W)
  | handled (w : W) (entry : ℕ) (handler : HandlerEnd)
  | finish (time : ℤ) (jobId : String) (entry : ℕ) (text : String)
  | markerExpires (jobId : String)
  | repliesExpire (jobId : String)
  | wait (call : Submitter.Call)
  | blmove (time : ℤ) (jobId : String) (text : Option String)
  | submitter (jobId : String) (e : Submitter.Event Json)
  | delete (jobId : String)

/-- The submitter has its reply. -/
def Replied (phase : Submitter.Phase Json) : Prop :=
  ∃ data, phase = .deleting data ∨ phase = .ended (Submitter.parseReply data)

/-- No handler has ended with a reply. -/
def FinishesNothing (s s' : World W) : Prop :=
  ∀ (w : W) (t : ℕ) (task' : Task W), (s'.workers w).tasks[t]? = some task' →
    task'.phase = .finishing →
    ∃ task, (s.workers w).tasks[t]? = some task ∧ task.phase = .finishing

variable [DecidableEq W] (cfg : Settings W)

/-- One step of a party, an execution on the server, or time. -/
inductive Step (s : State W) : Event W → State W → Prop
  | enqueue (a : Producer.Submit) (id : ℕ) (hnew : s.queue.server.stream.lastId < id)
      (hprinted : a.Printed s.now) :
      Step s (.enqueue s.now a (Producer.enqueueScript a id s.queue hnew).1)
        { s with
          world :=
            { s.world with server := (Producer.enqueueScript a id s.queue hnew).2.server }
          markers := (Producer.enqueueScript a id s.queue hnew).2.markers }
  | worker (e : Dispatch.Event W) (world : World W)
      (hstep : Dispatch.Step cfg.toConfig s.world e world)
      (happend : ∀ id fields, e ≠ .append id fields)
      (hfinish : ∀ w jobId entry, e.executes ≠ some (w, .finish jobId entry))
      (hhandlers : FinishesNothing s.world world) : Step s (.worker e) { s with world := world }
  -- `_run_job` from the end of the handler to `_finish`
  | handled (w : W) (t : ℕ) (task : Task W) (handler : HandlerEnd) (text outcome : String)
      (halive : (s.world.workers w).alive = true)
      (htask : (s.world.workers w).tasks[t]? = some task) (hphase : task.phase = .handler)
      (hrun : runJob handler = .finish text outcome) :
      Step s (.handled w task.entry handler)
        { s with
          world :=
            { s.world with
              workers := Function.update s.world.workers w
                ((s.world.workers w).setTask t { task with phase := .finishing, reply := none }) }
          outcomes := (w, task.entry, text) :: s.outcomes }
  | finish (e : Dispatch.Event W) (world : World W) (w : W) (jobId : String) (entry : ℕ)
      (text : String) (hstep : Dispatch.Step cfg.toConfig s.world e world)
      (hexec : e.executes = some (w, .finish jobId entry))
      (htext : (w, entry, text) ∈ s.outcomes) :
      Step s (.finish s.now jobId entry text)
        { s with
          world := world
          replies := Function.update s.replies jobId
            (some (push text (s.now + cfg.replyTtlMs) (s.replies jobId))) }
  | markerExpires (jobId : String) (marker : Producer.Marker)
      (hmarker : s.markers jobId = some marker) (hdeadline : marker.deadline ≤ s.now) :
      Step s (.markerExpires jobId)
        { s with markers := Function.update s.markers jobId none }
  | repliesExpire (jobId : String) (l : ReplyList) (hreplies : s.replies jobId = some l)
      (hdeadline : l.deadline ≤ s.now) :
      Step s (.repliesExpire jobId) { s with replies := Function.update s.replies jobId none }
  | wait (call : Submitter.Call) (hnew : s.calls call.jobId = none) :
      Step s (.wait call)
        { s with
          calls := Function.update s.calls call.jobId (some (call, ⟨call.start, none, .head⟩)) }
  | blmove (jobId : String) (l : ReplyList) (hreplies : s.replies jobId = some l) :
      Step s (.blmove s.now jobId (some l.right))
        { s with
          replies := Function.update s.replies jobId (some l.rotate)
          reads := (jobId, l.right) :: s.reads }
  | blmoveEmpty (jobId : String) (hreplies : s.replies jobId = none) :
      Step s (.blmove s.now jobId none) s
  -- a reply is the text of a `BLMOVE` that has executed
  | submitter (jobId : String) (call : Submitter.Call) (st st' : Submitter.State Json)
      (e : Submitter.Event Json) (hcall : s.calls jobId = some (call, st))
      (hstep : Submitter.Step call st e st')
      (hreply : ∀ data, e.reply = some data →
        ∃ text, (jobId, text) ∈ s.reads ∧ readReply text = some data) :
      Step s (.submitter jobId e)
        { s with calls := Function.update s.calls jobId (some (call, st')) }
  | delete (jobId : String) (call : Submitter.Call) (st : Submitter.State Json)
      (hcall : s.calls jobId = some (call, st)) (hreplied : Replied st.phase) :
      Step s (.delete jobId) { s with replies := Function.update s.replies jobId none }

/-- The queue nobody has used. -/
def system : System (State W) (Event W) where
  start s := s = ⟨⟨.initial, fun _ => .initial, []⟩, fun _ => none, fun _ => none, [], [],
    fun _ => none⟩
  step := Step cfg

/-! ## What a trace says -/

section Trace

variable (tr : List (Event W))

/-- The entry was appended with these fields. -/
def Queued (id : ℕ) (fields : Fields) : Prop :=
  ∃ time a, Event.enqueue time a (.appended id) ∈ tr ∧ fields = Producer.jobFields a time

/-- A worker has run the handler on an entry that a submit of this job has appended, and the handler
has left this reply. -/
def Genuine (jobId text : String) : Prop :=
  ∃ time a entry w handler outcome, Event.enqueue time a (.appended entry) ∈ tr ∧
    a.jobId = jobId ∧ Event.handled w entry handler ∈ tr ∧ runJob handler = .finish text outcome

/-- The reply a submitter has, if any, is genuine. -/
def Answered (jobId : String) : Submitter.Phase Json → Prop
  | .deleting data => ∃ text, Genuine tr jobId text ∧ readReply text = some data
  | .ended outcome => outcome.GaveUp ∨
      ∃ text data, Genuine tr jobId text ∧ readReply text = some data ∧
        outcome = Submitter.parseReply data
  | _ => True

end Trace

/-! ## The invariant -/

/-- Jobs and replies are what they were made as, and a reply list is kept for its time to live, or
until its submitter has a reply. -/
structure Inv (tr : List (Event W)) (s : State W) : Prop where
  told : AllTold cfg.toConfig (Queued tr) s.world
  outcomes : ∀ w entry text, (w, entry, text) ∈ s.outcomes →
    ∃ handler outcome, Event.handled w entry handler ∈ tr ∧ runJob handler = .finish text outcome
  replies : ∀ jobId l, s.replies jobId = some l → ∀ text ∈ l.texts, Genuine tr jobId text
  reads : ∀ jobId text, (jobId, text) ∈ s.reads → Genuine tr jobId text
  calls : ∀ jobId call st, s.calls jobId = some (call, st) → Answered tr jobId st.phase
  kept : ∀ time jobId entry text, Event.finish time jobId entry text ∈ tr → time ≤ s.now ∧
    (time + cfg.replyTtlMs ≤ s.now ∨
      (∃ call st, s.calls jobId = some (call, st) ∧ Replied st.phase) ∨
      ∃ l, s.replies jobId = some l ∧ time + cfg.replyTtlMs ≤ l.deadline)

variable {cfg} {tr : List (Event W)} {s s' : State W} {e : Event W}

section Grow

omit [DecidableEq W]

variable {tr' : List (Event W)} (hsub : tr ⊆ tr')

include hsub

/-- What has been queued stays so. -/
theorem Queued.grow {id : ℕ} {fields : Fields} (h : Queued tr id fields) :
    Queued tr' id fields := by
  obtain ⟨time, a, hmem, hfields⟩ := h
  exact ⟨time, a, hsub hmem, hfields⟩

/-- A reply that a handler has left stays genuine. -/
theorem Genuine.grow {jobId text : String} (h : Genuine tr jobId text) :
    Genuine tr' jobId text := by
  obtain ⟨time, a, entry, w, handler, outcome, henqueue, hjob, hhandled, hrun⟩ := h
  exact ⟨time, a, entry, w, handler, outcome, hsub henqueue, hjob, hsub hhandled, hrun⟩

/-- So the answer of a call stays the answer to its job. -/
theorem Answered.grow {jobId : String} {phase : Submitter.Phase Json}
    (h : Answered tr jobId phase) : Answered tr' jobId phase := by
  cases phase with
  | deleting data =>
    obtain ⟨text, hgenuine, hread⟩ := h
    exact ⟨text, hgenuine.grow hsub, hread⟩
  | ended outcome =>
    rcases h with hgave | ⟨text, data, hgenuine, hread⟩
    · exact Or.inl hgave
    · exact Or.inr ⟨text, data, hgenuine.grow hsub, hread⟩
  | _ => trivial

end Grow

/-! ### Lemmas about the parts -/

/-- The identifier of a job is the field `id` of its entry. -/
theorem decode_id {π : Type} {py : Python π} {fields : Fields} {job : Job π}
    (h : decode py fields = some job) : field fields "id" = some job.id := by
  unfold decode at h
  simp only [Option.bind_eq_bind, Option.bind_eq_some_iff] at h
  obtain ⟨id, hid, text, -, payload, -, created, -, time, -, deadline, -, hjob⟩ := h
  rw [hid]
  split at hjob
  · cases hjob
    rfl
  · obtain ⟨limit, -, hjob⟩ := Option.bind_eq_some_iff.mp hjob
    cases hjob
    rfl

omit [DecidableEq W] in
/-- A job that is named was submitted. -/
theorem Queued.of_named {entry : ℕ} {jobId : String}
    (h : Named cfg.toConfig (Queued tr) entry jobId) :
    ∃ time a, Event.enqueue time a (.appended entry) ∈ tr ∧ a.jobId = jobId := by
  obtain ⟨fields, job, ⟨time, a, hmem, rfl⟩, hjob, rfl⟩ := h
  refine ⟨time, a, hmem, ?_⟩
  have hid := decode_id hjob
  exact Option.some.inj hid

/-- The clock does not go back. -/
theorem now_le {e : Dispatch.Event W} {s s' : World W} (h : Dispatch.Step cfg.toConfig s e s') :
    s.server.now ≤ s'.server.now := by
  cases h with
  | append | expire | act | crash => exact le_rfl
  | advance now hnow => exact hnow
  | exec w co cmd hcmd => exact (now_exec w s.server cmd).ge
  | late w cmd hstray => exact (now_exec w s.server cmd).ge

/-- A submitter that has its reply keeps it. -/
theorem Replied.step {call : Submitter.Call} {st st' : Submitter.State Json}
    {e : Submitter.Event Json} (h : Replied st.phase) (hstep : Submitter.Step call st e st') :
    Replied st'.phase := by
  obtain ⟨data, hphase | hphase⟩ := h
  · cases hstep with
    | advance => exact ⟨data, Or.inl hphase⟩
    | deleted data' suppressed hphase' =>
      obtain rfl := Submitter.Phase.deleting.inj (hphase.symm.trans hphase')
      exact ⟨data, Or.inr rfl⟩
    | timedOut hphase' | issue _ hphase' | empty _ hphase' | reply _ _ hphase'
    | tolerated _ _ _ hphase' | raised _ _ _ hphase' | pause hphase' | woken _ hphase' =>
      rw [hphase] at hphase'
      cases hphase'
  · exact absurd hphase (hstep.active _)

omit [DecidableEq W] in
/-- One step of a submitter whose replies are genuine. -/
theorem Answered.step {jobId : String} {call : Submitter.Call} {st st' : Submitter.State Json}
    {e : Submitter.Event Json} (h : Answered tr jobId st.phase)
    (hstep : Submitter.Step call st e st')
    (hreply : ∀ data, e.reply = some data → ∃ text, Genuine tr jobId text ∧
      readReply text = some data) : Answered tr jobId st'.phase := by
  cases hstep with
  | advance => exact h
  | timedOut hphase hblock => exact Or.inl trivial
  | issue block hphase hblock => trivial
  | empty block hphase => trivial
  | reply block data hphase => exact hreply data rfl
  | tolerated block exc since hphase hexc => trivial
  | raised block exc error hphase hexc => exact Or.inl trivial
  | pause hphase => trivial
  | woken pause hphase => trivial
  | deleted data suppressed hphase =>
    rw [hphase] at h
    obtain ⟨text, hgenuine, hread⟩ := h
    exact Or.inr ⟨text, data, hgenuine, hread, rfl⟩

/-! ### One step -/

section Step

omit [DecidableEq W] in
/-- The world, the handlers' replies and the clock, where a step leaves the reply lists alone. -/
theorem Inv.grow (h : Inv cfg tr s) {tr' : List (Event W)} (hsub : tr ⊆ tr') {world : World W}
    {markers : String → Option Producer.Marker}
    (htold : AllTold cfg.toConfig (Queued tr') world) (hnow : s.now ≤ world.server.now)
    (hfinish : ∀ time jobId entry text, Event.finish time jobId entry text ∈ tr' →
      Event.finish time jobId entry text ∈ tr) :
    Inv cfg tr' { s with world := world, markers := markers } where
  told := htold
  outcomes w entry text hmem := by
    obtain ⟨handler, outcome, hhandled, hrun⟩ := h.outcomes w entry text hmem
    exact ⟨handler, outcome, hsub hhandled, hrun⟩
  replies jobId l hl text hmem := (h.replies jobId l hl text hmem).grow hsub
  reads jobId text hmem := (h.reads jobId text hmem).grow hsub
  calls jobId call st hcall := (h.calls jobId call st hcall).grow hsub
  kept time jobId entry text hmem := by
    obtain ⟨hle, hkept⟩ := h.kept time jobId entry text (hfinish time jobId entry text hmem)
    exact ⟨hle.trans hnow, hkept.imp_left fun hover => hover.trans hnow⟩

omit [DecidableEq W] in
/-- An event that is no finish, and leaves the world alone. -/
theorem Inv.quiet (h : Inv cfg tr s)
    (he : ∀ time jobId entry text, e ≠ .finish time jobId entry text)
    {markers : String → Option Producer.Marker} :
    Inv cfg (e :: tr) { s with markers := markers } := by
  have hsub : tr ⊆ e :: tr := List.subset_cons_self e tr
  refine h.grow hsub (h.told.mono fun _ _ hq => hq.grow hsub) le_rfl ?_
  intro time jobId entry text hmem
  exact (List.mem_cons.mp hmem).resolve_left fun heq => he time jobId entry text heq.symm

/-- A producer's script executes. -/
theorem Inv.enqueue (h : Inv cfg tr s) (a : Producer.Submit) (id : ℕ)
    (hnew : s.queue.server.stream.lastId < id) :
    Inv cfg (.enqueue s.now a (Producer.enqueueScript a id s.queue hnew).1 :: tr)
      { s with
        world := { s.world with server := (Producer.enqueueScript a id s.queue hnew).2.server }
        markers := (Producer.enqueueScript a id s.queue hnew).2.markers } := by
  rcases Producer.enqueueScript_cases a id s.queue hnew with
    ⟨marker, -, heq⟩ | ⟨-, heq⟩ | ⟨-, -, heq⟩
  · rw [heq]
    exact h.quiet (by simp)
  · rw [heq]
    exact h.quiet (by simp)
  · rw [heq]
    have hsub := List.subset_cons_self (Event.enqueue (W := W) s.now a (.appended id)) tr
    refine h.grow hsub ?_ le_rfl ?_
    · have htold := h.told.mono fun _ _ hq => hq.grow hsub
      refine htold.step (.append id (Producer.jobFields a s.now) hnew) fun id' fields heq' => ?_
      obtain ⟨rfl, rfl⟩ := Dispatch.Event.append.inj heq'
      exact ⟨s.now, a, List.mem_cons_self, rfl⟩
    · intro time jobId entry text hmem
      exact (List.mem_cons.mp hmem).resolve_left (by simp)

/-- Something happens among the workers. -/
theorem Inv.worker (h : Inv cfg tr s) {e' : Dispatch.Event W} {world : World W}
    (hstep : Dispatch.Step cfg.toConfig s.world e' world)
    (happend : ∀ id fields, e' ≠ .append id fields)
    (he : ∀ time jobId entry text, e ≠ .finish time jobId entry text) :
    Inv cfg (e :: tr) { s with world := world } := by
  have hsub : tr ⊆ e :: tr := List.subset_cons_self e tr
  have htold := h.told.mono fun _ _ hq => hq.grow hsub
  refine h.grow hsub (htold.step hstep fun id fields heq => absurd heq (happend id fields))
    (now_le hstep) ?_
  intro time jobId entry text hmem
  exact (List.mem_cons.mp hmem).resolve_left fun heq => he time jobId entry text heq.symm

/-- A finish executes. -/
theorem Inv.finish (h : Inv cfg tr s) {e' : Dispatch.Event W} {world : World W} {w : W}
    {jobId : String} {entry : ℕ} {text : String}
    (hstep : Dispatch.Step cfg.toConfig s.world e' world)
    (hexec : e'.executes = some (w, .finish jobId entry)) (htext : (w, entry, text) ∈ s.outcomes) :
    Inv cfg (.finish s.now jobId entry text :: tr)
      { s with
        world := world
        replies := Function.update s.replies jobId
          (some (push text (s.now + cfg.replyTtlMs) (s.replies jobId))) } := by
  have hsub := List.subset_cons_self (Event.finish (W := W) s.now jobId entry text) tr
  have happend : ∀ id fields, e' ≠ .append id fields := by
    rintro id fields rfl
    cases hexec
  have hgenuine : Genuine tr jobId text := by
    obtain ⟨time, a, henqueue, hjob⟩ := Queued.of_named (h.told.finish hstep hexec)
    obtain ⟨handler, outcome, hhandled, hrun⟩ := h.outcomes w entry text htext
    exact ⟨time, a, entry, w, handler, outcome, henqueue, hjob, hhandled, hrun⟩
  have hnow : s.now ≤ world.server.now := now_le hstep
  refine ⟨?_, ?_, ?_, ?_, ?_, ?_⟩
  · have htold := h.told.mono fun _ _ hq => hq.grow hsub
    exact htold.step hstep fun id fields heq => absurd heq (happend id fields)
  · intro w' entry' text' hmem
    obtain ⟨handler, outcome, hhandled, hrun⟩ := h.outcomes w' entry' text' hmem
    exact ⟨handler, outcome, hsub hhandled, hrun⟩
  · intro jobId' l hl text' hmem
    by_cases hjob : jobId' = jobId
    · subst hjob
      simp only [Function.update_self, Option.some.injEq] at hl
      subst hl
      rcases mem_push hmem with rfl | ⟨l₀, hl₀, hold⟩
      · exact hgenuine.grow hsub
      · exact (h.replies jobId' l₀ hl₀ text' hold).grow hsub
    · simp only [Function.update_of_ne hjob] at hl
      exact (h.replies jobId' l hl text' hmem).grow hsub
  · exact fun jobId' text' hmem => (h.reads jobId' text' hmem).grow hsub
  · exact fun jobId' call st hcall => (h.calls jobId' call st hcall).grow hsub
  · intro time jobId' entry' text' hmem
    -- the list is as young as the finish that has just executed
    have hpushed (hle : time ≤ s.now) (hjob : jobId' = jobId) : ∃ l,
        Function.update s.replies jobId
          (some (push text (s.now + cfg.replyTtlMs) (s.replies jobId))) jobId' = some l ∧
        time + cfg.replyTtlMs ≤ l.deadline := by
      subst hjob
      exact ⟨_, Function.update_self .., Int.add_le_add_right hle _⟩
    rcases List.mem_cons.mp hmem with heq | hold
    · obtain ⟨rfl, rfl, -, -⟩ := Event.finish.inj heq
      exact ⟨hnow, Or.inr (Or.inr (hpushed le_rfl rfl))⟩
    · obtain ⟨hle, hkept⟩ := h.kept time jobId' entry' text' hold
      refine ⟨hle.trans hnow, ?_⟩
      by_cases hjob : jobId' = jobId
      · exact Or.inr (Or.inr (hpushed hle hjob))
      · simp only [Function.update_of_ne hjob]
        exact hkept.imp_left fun hover => hover.trans hnow

omit [DecidableEq W] in
/-- The reply lists change, but not before a list has expired or its submitter has a reply. -/
theorem Inv.lists (h : Inv cfg tr s)
    (he : ∀ time jobId entry text, e ≠ .finish time jobId entry text)
    {jobId : String} {list : Option ReplyList} {reads : List (String × String)}
    (htexts : ∀ l, list = some l → ∀ text ∈ l.texts, Genuine tr jobId text)
    (hreads : ∀ jobId text, (jobId, text) ∈ reads → Genuine tr jobId text)
    (hkept : ∀ l, s.replies jobId = some l →
      l.deadline ≤ s.now ∨ (∃ call st, s.calls jobId = some (call, st) ∧ Replied st.phase) ∨
        ∃ l', list = some l' ∧ l'.deadline = l.deadline) :
    Inv cfg (e :: tr)
      { s with replies := Function.update s.replies jobId list, reads := reads } := by
  have hsub : tr ⊆ e :: tr := List.subset_cons_self e tr
  have hquiet : Inv cfg (e :: tr) s := h.quiet he
  refine ⟨hquiet.told, hquiet.outcomes, ?_, ?_, hquiet.calls, ?_⟩
  · intro jobId' l hl text hmem
    by_cases hjob : jobId' = jobId
    · subst hjob
      simp only [Function.update_self] at hl
      exact (htexts l hl text hmem).grow hsub
    · simp only [Function.update_of_ne hjob] at hl
      exact hquiet.replies jobId' l hl text hmem
  · exact fun jobId' text hmem => (hreads jobId' text hmem).grow hsub
  · intro time jobId' entry text hmem
    obtain ⟨hle, hold⟩ := hquiet.kept time jobId' entry text hmem
    refine ⟨hle, ?_⟩
    by_cases hjob : jobId' = jobId
    · subst hjob
      rcases hold with hover | hreplied | ⟨l, hl, hdeadline⟩
      · exact Or.inl hover
      · exact Or.inr (Or.inl hreplied)
      · rcases hkept l hl with hexpired | hreplied | ⟨l', hl', hsame⟩
        · exact Or.inl (hdeadline.trans hexpired)
        · exact Or.inr (Or.inl hreplied)
        · exact Or.inr (Or.inr ⟨l', by simp [hl'], hsame ▸ hdeadline⟩)
    · simp only [Function.update_of_ne hjob]
      exact hold

omit [DecidableEq W] in
/-- A submitter goes on, or starts to wait. -/
theorem Inv.call (h : Inv cfg tr s)
    (he : ∀ time jobId entry text, e ≠ .finish time jobId entry text)
    {jobId : String} {call : Submitter.Call} {st : Submitter.State Json}
    (hanswered : Answered tr jobId st.phase)
    (hreplied : ∀ call' st', s.calls jobId = some (call', st') → Replied st'.phase →
      Replied st.phase) :
    Inv cfg (e :: tr) { s with calls := Function.update s.calls jobId (some (call, st)) } := by
  have hsub : tr ⊆ e :: tr := List.subset_cons_self e tr
  have hquiet : Inv cfg (e :: tr) s := h.quiet he
  refine ⟨hquiet.told, hquiet.outcomes, hquiet.replies, hquiet.reads, ?_, ?_⟩
  · intro jobId' call' st' hcall
    by_cases hjob : jobId' = jobId
    · subst hjob
      simp only [Function.update_self, Option.some.injEq, Prod.mk.injEq] at hcall
      obtain ⟨-, rfl⟩ := hcall
      exact hanswered.grow hsub
    · simp only [Function.update_of_ne hjob] at hcall
      exact hquiet.calls jobId' call' st' hcall
  · intro time jobId' entry text hmem
    obtain ⟨hle, hold⟩ := hquiet.kept time jobId' entry text hmem
    refine ⟨hle, hold.imp_right (Or.imp_left ?_)⟩
    rintro ⟨call', st', hcall, hreplied'⟩
    by_cases hjob : jobId' = jobId
    · subst hjob
      exact ⟨call, st, Function.update_self .., hreplied call' st' hcall hreplied'⟩
    · refine ⟨call', st', ?_, hreplied'⟩
      simp only [Function.update_of_ne hjob]
      exact hcall

/-- **One step** keeps the invariant. -/
theorem Inv.step (h : Inv cfg tr s) (hstep : Step cfg s e s') : Inv cfg (e :: tr) s' := by
  cases hstep with
  | enqueue a id hnew hprinted => exact h.enqueue a id hnew
  | worker e' world hstep happend hfinish hhandlers => exact h.worker hstep happend (by simp)
  | handled w t task handler text outcome halive htask hphase hrun =>
    have hact : Dispatch.Step cfg.toConfig s.world (.act w .quiet) _ :=
      .act w .quiet _ halive (.task htask (.finish hphase))
    have hworld : Inv cfg (.handled w task.entry handler :: tr) _ :=
      h.worker hact (by simp) (by simp)
    refine ⟨hworld.told, ?_, hworld.replies, hworld.reads, hworld.calls, hworld.kept⟩
    intro w' entry text' hmem
    rcases List.mem_cons.mp hmem with heq | hold
    · obtain ⟨rfl, rfl, rfl⟩ : w' = w ∧ entry = task.entry ∧ text' = text := by simpa using heq
      exact ⟨handler, outcome, List.mem_cons_self, hrun⟩
    · exact hworld.outcomes w' entry text' hold
  | finish e' world w jobId entry text hstep hexec htext => exact h.finish hstep hexec htext
  | markerExpires jobId marker hmarker hdeadline => exact h.quiet (by simp)
  | repliesExpire jobId l hreplies hdeadline =>
    refine h.lists (by simp) (by simp) h.reads fun l' hl' => Or.inl ?_
    obtain rfl := Option.some.inj (hreplies.symm.trans hl')
    exact hdeadline
  | wait call hnew =>
    refine h.call (by simp) trivial fun call' st' hcall => ?_
    rw [hnew] at hcall
    cases hcall
  | blmove jobId l hreplies =>
    refine h.lists (by simp) ?_ ?_ ?_
    · intro l' hl' text hmem
      obtain rfl := Option.some.inj hl'
      exact h.replies jobId l hreplies text (ReplyList.mem_rotate.mp hmem)
    · intro jobId' text hmem
      rcases List.mem_cons.mp hmem with heq | hold
      · obtain ⟨rfl, rfl⟩ := Prod.mk.inj heq
        exact h.replies jobId' l hreplies l.right l.right_mem
      · exact h.reads jobId' text hold
    · intro l' hl'
      obtain rfl := Option.some.inj (hreplies.symm.trans hl')
      exact Or.inr (Or.inr ⟨l.rotate, rfl, rfl⟩)
  | blmoveEmpty jobId hreplies => exact h.quiet (by simp)
  | submitter jobId call st st' e' hcall hstep hreply =>
    refine h.call (by simp) ?_ ?_
    · refine (h.calls jobId call st hcall).step hstep fun data hdata => ?_
      obtain ⟨text, hmem, hread⟩ := hreply data hdata
      exact ⟨text, h.reads jobId text hmem, hread⟩
    · intro call₀ st₀ hcall₀ hreplied
      obtain ⟨-, rfl⟩ := Prod.mk.inj (Option.some.inj (hcall.symm.trans hcall₀))
      exact hreplied.step hstep
  | delete jobId call st hcall hreplied =>
    refine h.lists (by simp) (by simp) h.reads fun l hl => ?_
    exact Or.inr (Or.inl ⟨call, st, hcall, hreplied⟩)

end Step

/-! ## Runs -/

/-- The invariant holds in every run: by induction on the run, one case for each event. -/
theorem inv_of_run (h : (system cfg).Run tr s) : Inv cfg tr s := by
  refine System.Run.invariant (I := Inv cfg) ?_ (fun tr s e s' _ ih hstep => ih.step hstep) h
  rintro s rfl
  refine ⟨⟨?_, ?_, ?_⟩, ?_, ?_, ?_, ?_, ?_⟩
  · simp [Server.initial, StreamKey.missing]
  · exact fun w => ⟨by simp [Worker.initial], by simp [Worker.initial]⟩
  all_goals simp

omit [DecidableEq W] in
/-- A genuine reply can be read, and tells how the handler ended. -/
theorem Genuine.outcome {jobId text : String} (h : Genuine tr jobId text) :
    ∃ data time a entry w handler, readReply text = some data ∧
      Event.enqueue time a (.appended entry) ∈ tr ∧ a.jobId = jobId ∧
      Event.handled w entry handler ∈ tr ∧
      handler.outcome = some (Submitter.parseReply data) := by
  obtain ⟨time, a, entry, w, handler, outcome, henqueue, hjob, hhandled, hrun⟩ := h
  obtain ⟨data, hread, houtcome, -⟩ := parse_reply_of_run hrun
  exact ⟨data, time, a, entry, w, handler, hread, henqueue, hjob, hhandled, houtcome⟩

/-- **A submitter is told what became of its own job.** Whatever any party does and whatever is lost
on the way, a call that ends with a result or a `JobFailedError` ends with the outcome of a handler
which some worker has run on an entry that a submit of this job has appended; and every worker that
decodes the entry finds the identifier, the payload and the deadline that were submitted. -/
theorem answer_of_own_job (h : (system cfg).Run tr s) {jobId : String} {call : Submitter.Call}
    {st : Submitter.State Json} (hcall : s.calls jobId = some (call, st))
    {outcome : Submitter.Outcome Json} (hended : st.phase = .ended outcome)
    (hreply : ¬ outcome.GaveUp) :
    ∃ time a entry w handler, Event.enqueue time a (.appended entry) ∈ tr ∧ a.jobId = jobId ∧
      Event.handled w entry handler ∈ tr ∧ handler.outcome = some outcome ∧
      ∀ payload, a.payload = Json.dumps payload →
        decode cfg.python (Producer.jobFields a time) =
          some ⟨jobId, payload, (time : ℚ) / 1000,
            a.timeoutMs.map fun timeoutMs => ((time + timeoutMs : ℤ) : ℚ) / 1000⟩ := by
  have hanswered := (inv_of_run h).calls jobId call st hcall
  rw [hended] at hanswered
  obtain ⟨text, data, hgenuine, hread, rfl⟩ := hanswered.resolve_left hreply
  obtain ⟨data', time, a, entry, w, handler, hread', henqueue, rfl, hhandled, houtcome⟩ :=
    hgenuine.outcome
  obtain rfl := Option.some.inj (hread.symm.trans hread')
  refine ⟨time, a, entry, w, handler, henqueue, rfl, hhandled, houtcome, ?_⟩
  intro payload hpayload
  rw [cfg.python_eq]
  exact decode_jobFields hpayload time

/-- **A reply waits for its submitter.** Until the submitter has a reply, and for the time to live
from each finish of the job on, every `BLMOVE` that executes reads a reply, no matter how many have
read it before: one that tells the outcome of a handler of this job. -/
theorem reply_waits (h : (system cfg).Run tr s) {time : ℤ} {jobId : String} {entry : ℕ}
    {text : String} (hfinish : Event.finish time jobId entry text ∈ tr)
    (hnow : s.now < time + cfg.replyTtlMs)
    (hwaits : ∀ call st, s.calls jobId = some (call, st) → ¬ Replied st.phase)
    {read : Option String} (hstep : Step cfg s (.blmove s.now jobId read) s') :
    ∃ text data a time entry w handler, read = some text ∧ readReply text = some data ∧
      Event.enqueue time a (.appended entry) ∈ tr ∧ a.jobId = jobId ∧
      Event.handled w entry handler ∈ tr ∧
      handler.outcome = some (Submitter.parseReply data) := by
  have hinv := inv_of_run h
  obtain ⟨l, hl⟩ : ∃ l, s.replies jobId = some l := by
    rcases (hinv.kept time jobId entry text hfinish).2 with hover | ⟨call, st, hcall, hreplied⟩ |
      ⟨l, hl, -⟩
    · exact absurd hover (not_le.mpr hnow)
    · exact absurd hreplied (hwaits call st hcall)
    · exact ⟨l, hl⟩
  have hgenuine : Genuine tr jobId l.right := hinv.replies jobId l hl l.right l.right_mem
  obtain ⟨data, time', a, entry', w, handler, hread, henqueue, hjob, hhandled, houtcome⟩ :=
    hgenuine.outcome
  cases hstep with
  | blmove _ l' hreplies =>
    obtain rfl := Option.some.inj (hl.symm.trans hreplies)
    exact ⟨l.right, data, a, time', entry', w, handler, rfl, hread, henqueue, hjob, hhandled,
      houtcome⟩
  | blmoveEmpty _ hreplies =>
    rw [hl] at hreplies
    cases hreplies

/-! ### A job and its result -/

/-- One worker, and a minute for a reply. -/
def minute : Settings Unit := ⟨⟨python, 1000, fun _ => none, true⟩, 60000, rfl⟩

/-- A submit of the payload `3`. -/
def three : Producer.Submit := ⟨"j", Json.dumps (.int 3), 1, 60000, none, Nat.zero_lt_succ _⟩

/-- Its submitter waits for as long as it takes. -/
def patient : Submitter.Call := ⟨"q", "j", none, none, 0⟩

/-- The handler returns a number. -/
def four : HandlerEnd := .returned (.printed (.int 4))

/-- The reply a handler that returns `4` leaves. -/
def fourReply : Submitter.ReplyData Json := ⟨true, some (.int 4), none, none, none⟩

/-- The text of that reply. -/
def fourText : String := Json.dumps (.dict [("ok", .bool true), ("result", .int 4)])

/-- Something happens while no task is finishing. -/
theorem worker_step {s : State Unit} {e : Dispatch.Event Unit} {world : World Unit}
    (hstep : Dispatch.Step minute.toConfig s.world e world)
    (happend : ∀ id fields, e ≠ .append id fields)
    (hfinish : ∀ w jobId entry, e.executes ≠ some (w, .finish jobId entry))
    (htasks : ((world.workers ()).tasks.all fun task => task.phase ≠ .finishing) = true) :
    (system minute).step s (.worker e) { s with world := world } := by
  refine .worker e world hstep happend hfinish fun w t task htask hphase => ?_
  have hnot := List.all_eq_true.mp htasks task (List.mem_of_getElem? htask)
  exact absurd hphase (of_decide_eq_true hnot)

/-- A call finds the reply of its job at the right end of the list. -/
theorem blmove_step {s : State Unit} {time : ℤ} {jobId text : String} {l : ReplyList}
    (hnow : s.now = time) (hl : s.replies jobId = some l) (hright : l.right = text) :
    (system minute).step s (.blmove time jobId (some text))
      { s with
        replies := Function.update s.replies jobId (some l.rotate)
        reads := (jobId, text) :: s.reads } := by
  subst hnow hright
  exact .blmove jobId l hl

/-- The worker has run the job, and its finish has executed. -/
def finished : List (Event Unit) :=
  [.finish 0 "j" 1 fourText, .handled () 1 four, .worker (.act () (.start 1)),
    .worker (.act () .quiet), .worker (.exec () .lead .readNew), .worker (.act () .quiet),
    .worker (.act () .quiet), .worker (.exec () .lead .ensureGroup), .worker (.act () .quiet),
    .worker (.exec () .run (.acquire 0)), .worker (.act () .quiet), .wait patient,
    .enqueue 0 three (.appended 1)]

/-- A run up to the finished job, with the call waiting. -/
theorem run_finished : ∃ s : State Unit, (system minute).Run finished s ∧ s.now = 0 ∧
    s.calls "j" = some (patient, ⟨0, none, .head⟩) ∧
    ∃ l, s.replies "j" = some l ∧ l.right = fourText := by
  have hjob : decode minute.python (Producer.jobFields three 0) = some _ := decode_jobFields rfl 0
  have h : (system minute).Run [] _ := .start rfl
  have h := h.step (Step.enqueue three 1 (by decide) ⟨by decide, by rintro _ ⟨⟩⟩)
  have h := h.step (Step.wait patient rfl)
  have h := h.step (worker_step (Dispatch.Step.act () _ _ rfl (.run (.ask rfl rfl)))
    (by simp) (by simp [Dispatch.Event.executes]) rfl)
  have h := h.step (worker_step (Dispatch.Step.exec () .run _ rfl)
    (by simp) (by simp [Dispatch.Event.executes]) rfl)
  have h := h.step (worker_step (Dispatch.Step.act () _ _ rfl (.run (.won 0 rfl)))
    (by simp) (by simp [Dispatch.Event.executes]) rfl)
  have h := h.step (worker_step (Dispatch.Step.exec () .lead _ rfl)
    (by simp) (by simp [Dispatch.Event.executes]) rfl)
  have h := h.step (worker_step (Dispatch.Step.act () _ _ rfl (.lead rfl (.ensured .top _ rfl rfl)))
    (by simp) (by simp [Dispatch.Event.executes]) rfl)
  have h := h.step (worker_step (Dispatch.Step.act () _ _ rfl (.lead rfl (.skip rfl rfl rfl rfl)))
    (by simp) (by simp [Dispatch.Event.executes]) rfl)
  have h := h.step (worker_step (Dispatch.Step.exec () .lead _ rfl)
    (by simp) (by simp [Dispatch.Event.executes]) rfl)
  have h := h.step (worker_step (Dispatch.Step.act () _ _ rfl
    (.lead rfl (.read [(some 1, some (Producer.jobFields three 0))] rfl rfl)))
    (by simp) (by simp [Dispatch.Event.executes]) rfl)
  have h := h.step (worker_step (Dispatch.Step.act () _ _ rfl
    (.lead rfl (.startUncapped 1 (Producer.jobFields three 0) [] _ rfl (List.cons_ne_nil _ _) hjob
      rfl))) (by simp) (by simp [Dispatch.Event.executes]) rfl)
  have h := h.step (Step.handled () 0 _ four fourText "completed" rfl rfl rfl rfl)
  have h := h.step (Step.finish (.exec () (.task 0) (.finish "j" 1)) _ () "j" 1 fourText
    (.exec () (.task 0) _ rfl) rfl List.mem_cons_self)
  exact ⟨_, h, rfl, rfl, _, rfl, rfl⟩

/-- The `BLMOVE` of the submitter reads what the handler has returned. -/
theorem reply_waits_finished : ∃ (s s' : State Unit) (read : Option String),
    (system minute).Run finished s ∧ Step minute s (.blmove s.now "j" read) s' ∧
    ∃ text data a time entry w handler, read = some text ∧ readReply text = some data ∧
      Event.enqueue time a (.appended entry) ∈ finished ∧ a.jobId = "j" ∧
      Event.handled w entry handler ∈ finished ∧
      handler.outcome = some (Submitter.parseReply data) := by
  obtain ⟨s, h, hnow, hcall, l, hl, -⟩ := run_finished
  have hstep : Step minute s (.blmove s.now "j" (some l.right)) _ := .blmove "j" l hl
  refine ⟨s, _, _, h, hstep, reply_waits h List.mem_cons_self ?_ ?_ hstep⟩
  · rw [hnow]
    decide
  · intro call st hsome
    obtain ⟨-, rfl⟩ := Prod.mk.inj (Option.some.inj (hcall.symm.trans hsome))
    rintro ⟨data, hphase | hphase⟩ <;> cases hphase

/-- The submitter reads its reply, and returns. -/
def answered : List (Event Unit) :=
  [.submitter "j" (.deleted false), .delete "j", .submitter "j" (.answered (some fourReply)),
    .blmove 0 "j" (some fourText), .submitter "j" .next] ++ finished

theorem answer_of_own_job_four : ∃ (s : State Unit), (system minute).Run answered s ∧
    ∃ time a entry w handler, Event.enqueue time a (.appended entry) ∈ answered ∧
      a.jobId = "j" ∧ Event.handled w entry handler ∈ answered ∧
      handler.outcome = some (.returned (some (.int 4))) ∧
      ∀ payload, a.payload = Json.dumps payload →
        decode minute.python (Producer.jobFields a time) =
          some ⟨"j", payload, (time : ℚ) / 1000,
            a.timeoutMs.map fun timeoutMs => ((time + timeoutMs : ℤ) : ℚ) / 1000⟩ := by
  have hconclude {s : State Unit} (h : (system minute).Run answered s)
      (hcall : s.calls "j" =
        some (patient, ⟨0, none, .ended (.returned (some (.int 4)))⟩)) :=
    answer_of_own_job h hcall rfl id
  obtain ⟨s, h, hnow, hcall, l, hl, hright⟩ := run_finished
  have hblock : Submitter.nextBlock patient 0 = some 5 := by
    norm_num [Submitter.nextBlock, patient, Submitter.Call.giveUp, Submitter.blockCap]
  have hread : readReply fourText = some fourReply := readReply_result (.int 4)
  have h := h.step (Step.submitter "j" patient _ _ .next hcall (.issue 5 rfl hblock)
    (by simp [Submitter.Event.reply]))
  have h := h.step (blmove_step hnow hl hright)
  have h := h.step (Step.submitter "j" patient ⟨0, none, .blocking 5⟩ _ (.answered (some _))
    (by simp) (.reply 5 _ rfl) fun data hdata => ⟨fourText, List.mem_cons_self, hdata ▸ hread⟩)
  have h := h.step (Step.delete "j" patient ⟨0, none, .deleting fourReply⟩ (by simp)
    ⟨_, Or.inl rfl⟩)
  have h := h.step (Step.submitter "j" patient ⟨0, none, .deleting fourReply⟩ _ (.deleted false)
    (by simp) (.deleted _ false rfl) (by simp [Submitter.Event.reply]))
  exact ⟨_, h, hconclude h (by simp [fourReply, Submitter.parseReply])⟩

end RedisSemaphore.Dispatch.Exchange
