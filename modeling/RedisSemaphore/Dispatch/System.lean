import Mathlib.Logic.Function.Basic
import RedisSemaphore.Dispatch.Worker
import RedisSemaphore.Transition

/-!
# Workers, server and network

Any number of workers over one server. Between any two segments of one worker other workers may act,
producers append, the Mutex expires and workers crash. A command in flight executes at some moment,
or never, or more than once where the client sends it again; one that was given up, by an exception
or a crash, may still execute at any later moment (`late`).
-/

namespace RedisSemaphore.Dispatch

open Redis Transition

variable {W : Type*} {π : Type}

/-- The coroutines of a worker that talk to the server. -/
inductive Co
  | run
  | lead
  | task (t : ℕ)
  | touch
  deriving DecidableEq, Repr

namespace Worker

/-- The command a coroutine has in flight. -/
def command (k : Worker W) : Co → Option (Command W)
  | .run =>
    match k.election with
    | .asking mutex _ => some (.acquire mutex)
    | .idle => none
  | .lead => k.lead.bind Lead.command
  | .task t => k.tasks[t]?.bind Task.command
  | .touch =>
    match k.touch with
    | .claiming entries _ => some (.touch entries)
    | _ => none

/-- The reply reaches the coroutine. -/
def answer (k : Worker W) (r : Reply W) : Co → Worker W
  | .run =>
    match k.election with
    | .asking mutex _ => { k with election := .asking mutex (some r) }
    | .idle => k
  | .lead => { k with lead := k.lead.map fun l => { l with reply := some r } }
  | .task t => { k with tasks := k.tasks.modify t fun task => { task with reply := some r } }
  | .touch =>
    match k.touch with
    | .claiming entries _ => { k with touch := .claiming entries (some r) }
    | _ => k

/-- A reply to a task reaches that task only. -/
theorem answer_task {k : Worker W} {r : Reply W} {t : ℕ} :
    k.answer r (.task t) = k ∨ ∃ task, k.tasks[t]? = some task ∧
      k.answer r (.task t) = k.setTask t { task with reply := some r } := by
  rw [answer]
  cases htask : k.tasks[t]? with
  | none =>
    left
    rw [List.modify_eq_self (List.getElem?_eq_none_iff.mp htask)]
  | some task =>
    have hset : k.tasks.modify t (fun task => { task with reply := some r }) =
        k.tasks.set t { task with reply := some r } := by
      refine List.ext_getElem? fun i => ?_
      rw [List.getElem?_modify, List.getElem?_set']
      split
      · rename_i heq
        subst heq
        rw [htask]
        rfl
      · simp
    exact Or.inr ⟨task, rfl, by rw [hset, setTask]⟩

/-- A reply to the lead loop is all that changes of it. -/
theorem lead_answer {k : Worker W} {r : Reply W} {l : Lead W} (h : k.lead = some l) :
    (k.answer r .lead).lead = some { l with reply := some r } := by
  rw [answer, h]
  rfl

/-- A reply to another coroutine leaves the lead loop as it is. -/
theorem answer_lead {k : Worker W} {r : Reply W} {co : Co} (hco : co ≠ .lead) :
    (k.answer r co).lead = k.lead := by
  cases co with
  | lead => exact absurd rfl hco
  | task t => rfl
  | run =>
    rw [answer]
    split <;> rfl
  | touch =>
    rw [answer]
    split <;> rfl

/-- A reply takes nothing and gives nothing back. -/
@[simp] theorem answer_taken {k : Worker W} {r : Reply W} {co : Co} :
    (k.answer r co).taken = k.taken := by
  cases co with
  | lead => rfl
  | task t => rfl
  | run =>
    rw [answer]
    split <;> rfl
  | touch =>
    rw [answer]
    split <;> rfl

/-- A reply moves no lead loop. -/
theorem pc_of_answer {k : Worker W} {r : Reply W} {co : Co} {l' : Lead W}
    (h : (k.answer r co).lead = some l') : ∃ l, k.lead = some l ∧ l'.pc = l.pc := by
  by_cases hco : co = .lead
  · subst hco
    obtain ⟨l, hl, rfl⟩ := Option.map_eq_some_iff.mp h
    exact ⟨l, hl, rfl⟩
  · exact ⟨l', (answer_lead hco).symm.trans h, rfl⟩

/-- A reply moves no task. -/
theorem phase_of_answer {k : Worker W} {r : Reply W} {co : Co} {t : ℕ} {task' : Task W}
    (h : (k.answer r co).tasks[t]? = some task') :
    ∃ task, k.tasks[t]? = some task ∧ task'.entry = task.entry ∧ task'.phase = task.phase := by
  cases co with
  | lead => exact ⟨task', h, rfl, rfl⟩
  | task t₀ =>
    simp only [answer, List.getElem?_modify] at h
    obtain ⟨task, htask, rfl⟩ := Option.map_eq_some_iff.mp h
    refine ⟨task, htask, ?_⟩
    split <;> exact ⟨rfl, rfl⟩
  | run =>
    rw [answer] at h
    split at h <;> exact ⟨task', h, rfl, rfl⟩
  | touch =>
    rw [answer] at h
    split at h <;> exact ⟨task', h, rfl, rfl⟩

/-- A reply moves no touch loop. -/
theorem touch_of_answer {k : Worker W} {r : Reply W} {co : Co} {entries : Finset ℕ}
    {reply : Option (Reply W)} (h : (k.answer r co).touch = .claiming entries reply) :
    ∃ reply', k.touch = .claiming entries reply' := by
  cases co with
  | lead | task => exact ⟨reply, h⟩
  | run =>
    rw [answer] at h
    split at h <;> exact ⟨reply, h⟩
  | touch =>
    rw [answer] at h
    split at h
    · rename_i entries' reply' hclaiming
      obtain ⟨rfl, -⟩ := Touch.claiming.inj h
      exact ⟨reply', hclaiming⟩
    · exact ⟨reply, h⟩

/-- The lead loop sends what its program counter says. -/
theorem command_lead {k : Worker W} {l : Lead W} (h : k.lead = some l) :
    k.command .lead = l.command := by
  rw [command, h]
  rfl

/-- A worker without a lead loop sends the commands of its other coroutines. -/
theorem co_ne_lead {k : Worker W} {co : Co} {cmd : Command W} (hlead : k.lead = none)
    (hcmd : k.command co = some cmd) : co ≠ .lead := by
  rintro rfl
  rw [command, hlead] at hcmd
  cases hcmd

/-- Everything a worker has in flight. -/
def inFlight (k : Worker W) : List (Command W) :=
  [Co.run, .lead, .touch].filterMap k.command ++ k.tasks.filterMap Task.command

/-- A command in flight is that of a coroutine. -/
theorem exists_of_mem_inFlight {k : Worker W} {cmd : Command W} (h : cmd ∈ k.inFlight) :
    ∃ co, k.command co = some cmd := by
  rcases List.mem_append.mp h with h | h
  · obtain ⟨co, -, hco⟩ := List.mem_filterMap.mp h
    exact ⟨co, hco⟩
  · obtain ⟨task, htask, hcmd⟩ := List.mem_filterMap.mp h
    obtain ⟨t, ht⟩ := List.getElem?_of_mem htask
    exact ⟨.task t, by simp [command, ht, hcmd]⟩

end Worker

/-- The commands a local step gives up. -/
def Note.lost : Note W → List (Command W)
  | .lose commands => commands
  | _ => []

/-- The server, the workers, and the commands that were given up but may still execute. -/
structure World (W : Type*) where
  server : Server W
  workers : W → Worker W
  stray : List (W × Command W)

/-- What happens: a job is appended, the clock moves, the lock of the leadership Mutex expires, a
command is executed in time or late, a worker acts, or crashes. -/
inductive Event (W : Type*)
  | append (id : ℕ) (fields : Fields)
  | advance (now : ℤ)
  | expire
  | exec (w : W) (co : Co) (cmd : Command W)
  | late (w : W) (cmd : Command W)
  | act (w : W) (note : Note W)
  | crash (w : W)

/-- The command that executes in an event. -/
def Event.executes : Event W → Option (W × Command W)
  | .exec w _ cmd => some (w, cmd)
  | .late w cmd => some (w, cmd)
  | _ => none

/-- What another worker gives up is not a stray command of this one. -/
theorem mem_stray_of_ne {w w' : W} {cmd : Command W} {given : List (Command W)}
    {stray : List (W × Command W)} (hne : w ≠ w') (h : (w, cmd) ∈ given.map (w', ·) ++ stray) :
    (w, cmd) ∈ stray := by
  refine (List.mem_append.mp h).resolve_left fun hnew => ?_
  obtain ⟨cmd', -, hpair⟩ := List.mem_map.mp hnew
  exact hne (Prod.mk.inj hpair).1.symm

variable [DecidableEq W] (cfg : Config W π)

/-- What a step gives up was in flight. -/
theorem WorkerStep.command_of_lost {cfg : Config W π} {w : W} {k k' : Worker W} {note : Note W}
    {cmd : Command W} (h : WorkerStep cfg w k note k') (hcmd : cmd ∈ note.lost) :
    ∃ co, k.command co = some cmd := by
  cases h with
  | lead hlead hstep =>
    refine ⟨.lead, ?_⟩
    rw [Worker.command, hlead]
    cases hstep <;> first
      | exact Option.mem_toList.mp hcmd
      | cases hcmd
  | @task t task _ _ htask hstep =>
    refine ⟨.task t, ?_⟩
    rw [Worker.command, htask]
    cases hstep <;> first
      | exact Option.mem_toList.mp hcmd
      | cases hcmd
  | run hstep =>
    cases hstep with
    | askFailed mutex reply hasking =>
      obtain rfl := List.mem_singleton.mp hcmd
      exact ⟨.run, by rw [Worker.command, hasking]⟩
    | _ => cases hcmd
  | touch hstep =>
    cases hstep with
    | failed entries reply hclaiming =>
      obtain rfl := List.mem_singleton.mp hcmd
      exact ⟨.touch, by rw [Worker.command, hclaiming]⟩
    | _ => cases hcmd

/-- One event of the queue and its workers. A command executes at once and its reply waits for its
coroutine. -/
inductive Step (s : World W) : Event W → World W → Prop
  | append (id : ℕ) (fields : Fields) (hnew : s.server.stream.lastId < id) :
      Step s (.append id fields)
        { s with server := { s.server with stream := s.server.stream.add id fields hnew } }
  | advance (now : ℤ) (hnow : s.server.now ≤ now) :
      Step s (.advance now) { s with server := { s.server with now := now } }
  | expire : Step s .expire { s with server := { s.server with lock := none } }
  | exec (w : W) (co : Co) (cmd : Command W) (hcmd : (s.workers w).command co = some cmd) :
      Step s (.exec w co cmd)
        { s with
          server := (Dispatch.exec cfg w s.server cmd).1
          workers := Function.update s.workers w
            ((s.workers w).answer (Dispatch.exec cfg w s.server cmd).2 co) }
  | late (w : W) (cmd : Command W) (hstray : (w, cmd) ∈ s.stray) :
      Step s (.late w cmd) { s with server := (Dispatch.exec cfg w s.server cmd).1 }
  | act (w : W) (note : Note W) (k : Worker W) (halive : (s.workers w).alive = true)
      (hstep : WorkerStep cfg w (s.workers w) note k) :
      Step s (.act w note)
        { s with
          workers := Function.update s.workers w k
          stray := note.lost.map (w, ·) ++ s.stray }
  | crash (w : W) :
      Step s (.crash w)
        { s with
          workers := Function.update s.workers w .dead
          stray := (s.workers w).inFlight.map (w, ·) ++ s.stray }

variable {cfg} in
/-- A property of the worker `w` survives a step when it survives what `w` does, the replies it gets
and its death. -/
theorem Step.worker {P : Worker W → Prop} {s s' : World W} {e : Event W} {w : W}
    (h : Step cfg s e s') (hold : P (s.workers w))
    (hanswer : ∀ r co, P ((s.workers w).answer r co))
    (hact : ∀ note k, e = .act w note → s'.workers w = k →
      WorkerStep cfg w (s.workers w) note k → P k)
    (hdead : P .dead) : P (s'.workers w) := by
  cases h with
  | append | advance | expire | late => exact hold
  | exec w' co cmd hcmd =>
    by_cases heq : w = w'
    · subst heq
      simpa only [Function.update_self] using hanswer _ co
    · simpa only [Function.update_of_ne heq] using hold
  | act w' note k halive hstep =>
    by_cases heq : w = w'
    · subst heq
      have hk := hact note k rfl (by simp only [Function.update_self]) hstep
      simpa only [Function.update_self] using hk
    · simpa only [Function.update_of_ne heq] using hold
  | crash w' =>
    by_cases heq : w = w'
    · subst heq
      simpa only [Function.update_self] using hdead
    · simpa only [Function.update_of_ne heq] using hold

/-- The queue as a transition system. -/
def system : System (World W) (Event W) where
  start s := s = ⟨.initial, fun _ => .initial, []⟩
  step := Step cfg

end RedisSemaphore.Dispatch
