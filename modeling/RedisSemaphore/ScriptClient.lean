import RedisSemaphore.Deployment

/-!
# Scripts by digest

`LuaScriptRegistry` and `ScriptClientAdapter`. A method sends the digest of its script; if the
server does not know the script, the adapter sends the text, which the server runs and remembers.
The server may forget scripts at any moment, other clients may load theirs, and connections may
break while a command is on its way or the reply is.

Below the adapter the client may be set to send a command again (`retry_on_timeout`, or a retry of
its own among the `extra_kwargs`), on another connection and without knowing whether the server has
executed the first one, or is still going to. So a call may be executed more often than once, which
is what the scripts prepare for. What the server executes is still a run of `Deployment.system`:
every call runs its own script with its own arguments, once more at most than its command was sent
again, and what it returns is the answer of one of these executions.
-/

namespace RedisSemaphore.ScriptClient

open Redis Redis.Script RedisSemaphore.Wire KeyLayout
open Deployment (Layout)

/-! ## `LuaScriptRegistry` -/

/-- The keys of `SCRIPTS`. -/
inductive ScriptName
  | acquire | release | refresh | cleanup | status
  | rateAcquire | rateAdjust | rateStatus
  | dispatchEnqueue | dispatchStatus
  deriving DecidableEq, Repr

/-- `SCRIPTS`, in its order. -/
def ScriptName.all : List ScriptName :=
  [acquire, release, refresh, cleanup, status, rateAcquire, rateAdjust, rateStatus,
    dispatchEnqueue, dispatchStatus]

/-- There is no other script. -/
theorem ScriptName.mem_all (n : ScriptName) : n ∈ all := by
  cases n <;> decide

/-- What a call of the semaphore or the limiter of a name asks for. -/
inductive Request
  | semaphore (name : String) (call : Semaphore.Call String)
  | limiter (name : String) (call : RateLimiter.Call LimitName RateLimiter.Wire.Identifier)

namespace Request

/-- The script of its method. -/
def script : Request → ScriptName
  | semaphore _ (.acquire _ _ _) => .acquire
  | semaphore _ (.release _) => .release
  | semaphore _ (.refresh _ _) => .refresh
  | semaphore _ .cleanup => .cleanup
  | semaphore _ (.status _) => .status
  | limiter _ (.acquire _ _) => .rateAcquire
  | limiter _ (.adjust _ _ _) => .rateAdjust
  | limiter _ .status => .rateStatus

/-- The arguments that its method sends. -/
def invocation (L : Layout) : Request → Invocation
  | semaphore name call =>
    Semaphore.Wire.invocation (L.semaphore name).ownersKey (L.semaphore name).fencingKey none call
  | limiter name call =>
    RateLimiter.Wire.invocation (L.limiter name) (L.limits name) none call

/-- What its script does with these arguments, given the server's clock. -/
def program (usec : ℕ) (i : Invocation) : Request → Script Resp
  | semaphore _ call => Semaphore.Wire.script usec i call
  | limiter _ call => RateLimiter.Wire.script usec i call

/-- The call as it is executed, with what its method makes of the outcome. -/
def event (L : Layout) (time : ℤ) (outcome : Except ScriptError Resp) :
    Request → Deployment.Event
  | semaphore name call =>
    .semaphore name time call (Deployment.result (Semaphore.Wire.parse call) outcome)
  | limiter name call => .limiter name time call
    (Deployment.result (RateLimiter.Wire.parse (L.limits name) call) outcome)

/-- To execute the script of a request is a call in the shared database. -/
theorem step_event (L : Layout) (s : Deployment.Server) (r : Request) :
    let after := r.program s.usec (r.invocation L) s.db
    Deployment.Step L s (r.event L (millis s.usec) after.1) { s with db := after.2 } := by
  cases r with
  | semaphore name call => exact .semaphore s name call
  | limiter name call => exact .limiter s name call

end Request

/-- The texts of the scripts, their digests, and what the server does with a text. The digests of
the scripts are different, and each text does what its program says. -/
structure Registry where
  text : ScriptName → String
  sha1 : String → String
  lua : String → ℕ → Invocation → Script Resp
  distinct : ∀ a b, sha1 (text a) = sha1 (text b) → a = b
  runs : ∀ (r : Request) (usec : ℕ) (i : Invocation), lua (text r.script) usec i = r.program usec i

namespace Registry

variable (R : Registry)

/-- `get_sha`. -/
def getSha (n : ScriptName) : String := R.sha1 (R.text n)

/-- `_script_for_sha`. -/
def scriptForSha (sha : String) : Option String :=
  (ScriptName.all.map R.text).find? fun script => R.sha1 script = sha

/-- The digest of a script leads back to it. -/
theorem scriptForSha_getSha (n : ScriptName) : R.scriptForSha (R.getSha n) = some (R.text n) := by
  rw [scriptForSha]
  cases hfind : (ScriptName.all.map R.text).find? fun script => R.sha1 script = R.getSha n with
  | none =>
    have hnone := List.find?_eq_none.mp hfind (R.text n) (List.mem_map_of_mem n.mem_all)
    exact absurd (decide_eq_true rfl) hnone
  | some script =>
    obtain ⟨m, -, rfl⟩ := List.mem_map.mp (List.mem_of_find?_eq_some hfind)
    have hsha : R.sha1 (R.text m) = R.getSha n := by simpa using List.find?_some hfind
    rw [R.distinct m n hsha]

end Registry

/-! ## `ScriptClientAdapter` -/

/-- What the client sends for a call. -/
inductive Command
  /-- `EVALSHA`, with the digest of the script of the request. -/
  | evalsha
  /-- `EVAL`, with this text. -/
  | eval (script : String)

/-- What has become of a command. -/
inductive Fate
  /-- It is on its way, or nobody will ever know. -/
  | sent
  /-- `NOSCRIPT` is on its way back. -/
  | noScript
  /-- The reply is on its way back. -/
  | answered (outcome : Except ScriptError Resp)

/-- A call: the command whose reply would be read, the commands on connections that the client has
given up and whose replies nobody will read, and whether the method waits for the server. -/
structure Pending where
  request : Request
  command : Command
  fate : Fate
  abandoned : List Command
  waiting : Bool

namespace Pending

/-- The method sends the digest. -/
def first (r : Request) : Pending := ⟨r, .evalsha, .sent, [], true⟩

/-- The client gives up the connection and sends the command again. What has not been executed until
then may be executed later. -/
def resent (p : Pending) : Pending :=
  { p with
    fate := .sent
    abandoned := match p.fate with
      | .sent => p.command :: p.abandoned
      | .noScript | .answered _ => p.abandoned }

/-- How many executions may still come without another command being sent again: one for each
abandoned command, and one for the current one or its fallback. -/
def outstanding (p : Pending) : ℕ :=
  p.abandoned.length + match p.fate with
    | .sent | .noScript => 1
    | .answered _ => 0

end Pending

/-- The server with its cache of scripts by digest, and the calls made so far, each under a number
of its own. -/
structure State where
  server : Deployment.Server
  cache : String → Option String
  calls : ℕ → Option Pending

/-- What happens: a method sends its command, or the client sends it again; the server executes a
script or does not know it; the method falls back to the text, or raises because it does not find
it; a reply arrives or the client gives up; the server's cache changes; or something else happens at
the server. -/
inductive Event
  | send (c : ℕ) (r : Request)
  | resend (c : ℕ)
  | execute (c : ℕ) (e : Deployment.Event)
  | noScript (c : ℕ)
  | fallback (c : ℕ)
  | unknown (c : ℕ)
  | deliver (c : ℕ) (outcome : Except ScriptError Resp)
  | lose (c : ℕ)
  | scripts
  | server (e : Deployment.Event)

/-- Not a call. -/
def Ambient : Deployment.Event → Prop
  | .semaphore _ _ _ _ => False
  | .limiter _ _ _ _ => False
  | .wait _ => True
  | .expire _ => True
  | .other => True

namespace State

variable (R : Registry) (L : Layout) (s : State)

/-- The text that the server runs for a command: what it remembers for the digest, or what was
sent. -/
def text (r : Request) : Command → Option String
  | .evalsha => s.cache (R.getSha r.script)
  | .eval script => some script

/-- The server remembers every text that it runs. -/
def remember : Command → String → Option String
  | .evalsha => s.cache
  | .eval script => Function.update s.cache (R.sha1 script) (some script)

/-- The server runs a text with the arguments of a request. -/
def run (r : Request) (script : String) : Except ScriptError Resp × Deployment.Server :=
  let after := R.lua script s.server.usec (r.invocation L) s.server.db
  (after.1, { s.server with db := after.2 })

/-- A call goes on. -/
def setCall (c : ℕ) (p : Pending) : State :=
  { s with calls := Function.update s.calls c (some p) }

/-- What happens in the database when the server runs a text for a request. -/
def executed (r : Request) (script : String) : Deployment.Event :=
  r.event L (millis s.server.usec) (s.run R L r script).1

/-- The server has run a text for a command of a request, and a call goes on. -/
def afterwards (c : ℕ) (r : Request) (command : Command) (script : String) (p : Pending) : State :=
  ⟨(s.run R L r script).2, s.remember R command, Function.update s.calls c (some p)⟩

end State

/-- What clients, the connection and the server do to a command on its way: it is sent, sent
again, executed, answered or given up, in any order that the guards allow. -/
inductive Step (R : Registry) (L : Layout) : State → Event → State → Prop
  | send (s : State) (c : ℕ) (r : Request) (hfresh : s.calls c = none) :
    Step R L s (.send c r) (s.setCall c (.first r))
  | resend (s : State) (c : ℕ) (p : Pending) (hcall : s.calls c = some p)
      (hwait : p.waiting = true) :
    Step R L s (.resend c) (s.setCall c p.resent)
  | execute (s : State) (c : ℕ) (p : Pending) (script : String) (hcall : s.calls c = some p)
      (hfate : p.fate = .sent) (htext : s.text R p.request p.command = some script) :
    Step R L s (.execute c (s.executed R L p.request script))
      (s.afterwards R L c p.request p.command script
        { p with fate := .answered (s.run R L p.request script).1 })
  | late (s : State) (c : ℕ) (p : Pending) (earlier : List Command) (command : Command)
      (later : List Command) (script : String) (hcall : s.calls c = some p)
      (habandoned : p.abandoned = earlier ++ command :: later)
      (htext : s.text R p.request command = some script) :
    Step R L s (.execute c (s.executed R L p.request script))
      (s.afterwards R L c p.request command script { p with abandoned := earlier ++ later })
  | noScript (s : State) (c : ℕ) (p : Pending) (hcall : s.calls c = some p)
      (hfate : p.fate = .sent) (htext : s.text R p.request p.command = none) :
    Step R L s (.noScript c) (s.setCall c { p with fate := .noScript })
  | fallback (s : State) (c : ℕ) (p : Pending) (script : String) (hcall : s.calls c = some p)
      (hwait : p.waiting = true) (hfate : p.fate = .noScript)
      (hscript : R.scriptForSha (R.getSha p.request.script) = some script) :
    Step R L s (.fallback c) (s.setCall c { p with command := .eval script, fate := .sent })
  | unknown (s : State) (c : ℕ) (p : Pending) (hcall : s.calls c = some p)
      (hwait : p.waiting = true) (hfate : p.fate = .noScript)
      (hscript : R.scriptForSha (R.getSha p.request.script) = none) :
    Step R L s (.unknown c) (s.setCall c { p with waiting := false })
  | deliver (s : State) (c : ℕ) (p : Pending) (outcome : Except ScriptError Resp)
      (hcall : s.calls c = some p) (hwait : p.waiting = true) (hfate : p.fate = .answered outcome) :
    Step R L s (.deliver c outcome) (s.setCall c { p with waiting := false })
  | lose (s : State) (c : ℕ) (p : Pending) (hcall : s.calls c = some p)
      (hwait : p.waiting = true) :
    Step R L s (.lose c) (s.setCall c { p with waiting := false })
  | scripts (s : State) (cache : String → Option String)
      (hcache : ∀ sha script, cache sha = some script → s.cache sha = some script ∨
        sha = R.sha1 script ∧ ∀ n, R.sha1 script = R.getSha n → script = R.text n) :
    Step R L s .scripts { s with cache := cache }
  | server (s : State) (e : Deployment.Event) (t : Deployment.Server) (he : Ambient e)
      (hstep : Deployment.Step L s.server e t) :
    Step R L s (.server e) { s with server := t }

/-- Nobody has sent anything. -/
def system (R : Registry) (L : Layout) : Transition.System State Event where
  start s := (Deployment.system L).start s.server ∧ s.cache = (fun _ => none) ∧
    s.calls = fun _ => none
  step := Step R L

/-! ## Every command at most once -/

/-- What happens in the database. -/
def observe : Event → Option Deployment.Event
  | .execute _ e => some e
  | .server e => some e
  | _ => none

/-- The executions of a call. -/
def executions (c : ℕ) (tr : List Event) : List Deployment.Event :=
  tr.filterMap fun
    | .execute c' e => if c' = c then some e else none
    | _ => none

/-- How often the client sent a command of the call again. -/
def resends (c : ℕ) (tr : List Event) : ℕ :=
  tr.countP fun
    | .resend c' => c' = c
    | _ => false

/-- What is true of a call after a run. Every execution, past or to come, is owed to a command that
was sent. -/
structure Pending.Sound (R : Registry) (L : Layout) (c : ℕ) (tr : List Event) (p : Pending) :
    Prop where
  sent : .send c p.request ∈ tr
  texts : ∀ script, .eval script ∈ p.command :: p.abandoned → script = R.text p.request.script
  count : (executions c tr).length + p.outstanding ≤ 1 + resends c tr
  own : ∀ e ∈ executions c tr, ∃ time outcome, e = p.request.event L time outcome
  answered : ∀ outcome, p.fate = .answered outcome →
    ∃ time, p.request.event L time outcome ∈ executions c tr

/-- What is true of all calls after a run. -/
structure Faithful (R : Registry) (L : Layout) (tr : List Event) (s : State) : Prop where
  server : (Deployment.system L).Run (tr.filterMap observe) s.server
  cache : ∀ n script, s.cache (R.getSha n) = some script → script = R.text n
  fresh : ∀ c, s.calls c = none → executions c tr = []
  sound : ∀ c p, s.calls c = some p → p.Sound R L c tr
  delivered : ∀ c outcome, .deliver c outcome ∈ tr →
    ∃ p, s.calls c = some p ∧ p.fate = .answered outcome ∧ p.waiting = false
  found : ∀ c, .unknown c ∉ tr

section Step

variable {R : Registry} {L : Layout} {tr : List Event} {s t : State} {e : Event} {c : ℕ}
  {p : Pending}

/-- An execution counts for its own call. -/
theorem executions_cons_execute {e : Deployment.Event} {c c' : ℕ} :
    executions c' (.execute c e :: tr) =
      if c = c' then e :: executions c' tr else executions c' tr := by
  simp only [executions, List.filterMap_cons]
  split
  · rename_i h
    split at h
    · cases h
    · rename_i hne
      rw [if_neg hne]
  · rename_i h
    split at h
    · rename_i heq
      rw [if_pos heq, Option.some.inj h]
    · cases h

/-- One more resend of the call. -/
theorem resends_cons_resend : resends c (.resend c :: tr) = resends c tr + 1 := by
  simp [resends]

/-- No event takes a resend back. -/
theorem resends_le_cons : resends c tr ≤ resends c (e :: tr) :=
  (List.sublist_cons_self e tr).countP_le

/-- Sending again leaves one more execution open at most: what was answered is over, and what met
`NOSCRIPT` was still to be run by the fallback. -/
theorem Pending.outstanding_resent : p.resent.outstanding ≤ p.outstanding + 1 := by
  rcases p with ⟨request, command, fate, abandoned, waiting⟩
  cases fate <;> simp [resent, outstanding]

/-- An event that executes nothing for the call leaves what is true of it. -/
theorem Pending.Sound.cons (h : p.Sound R L c tr)
    (hexecutions : executions c (e :: tr) = executions c tr) : p.Sound R L c (e :: tr) where
  sent := List.mem_cons_of_mem _ h.sent
  texts := h.texts
  count := by
    rw [hexecutions]
    exact h.count.trans (Nat.add_le_add_left resends_le_cons 1)
  own := by rw [hexecutions]; exact h.own
  answered := by rw [hexecutions]; exact h.answered

/-- A call that returns, or that its method gives up, keeps its history. -/
theorem Pending.Sound.returned (h : p.Sound R L c tr) :
    Pending.Sound R L c tr { p with waiting := false } :=
  ⟨h.sent, h.texts, h.count, h.own, h.answered⟩

/-- A call begins with one command on its way and no execution. -/
theorem Pending.Sound.first {r : Request} (hfresh : executions c tr = []) :
    (Pending.first r).Sound R L c (.send c r :: tr) := by
  have hnone : executions c (.send c r :: tr) = [] := hfresh
  refine ⟨List.mem_cons_self, fun script hmem => ?_, ?_, ?_, fun outcome hfate => ?_⟩
  · rcases List.mem_cons.mp hmem with heq | hmem
    · cases heq
    · cases hmem
  · rw [hnone]
    exact Nat.le_add_right 1 _
  · rw [hnone]
    simp
  · cases hfate

/-- A resend leaves one more command behind, and is counted. -/
theorem Pending.Sound.resent (h : p.Sound R L c tr) :
    p.resent.Sound R L c (.resend c :: tr) := by
  refine ⟨List.mem_cons_of_mem _ h.sent, fun script hmem => h.texts script ?_, ?_, h.own,
    fun outcome hfate => ?_⟩
  · -- the command that is sent again is the one that was sent
    rcases p with ⟨request, command, fate, abandoned, waiting⟩
    cases fate <;> simpa [Pending.resent] using hmem
  · have hmore := @Pending.outstanding_resent p
    have hcount := h.count
    have hexecutions : executions c (.resend c :: tr) = executions c tr := rfl
    rw [hexecutions, resends_cons_resend]
    omega
  · cases hfate

/-- A refusal for want of the script closes the command without an execution. -/
theorem Pending.Sound.noScript (h : p.Sound R L c tr) (hfate : p.fate = .sent) :
    Pending.Sound R L c (.noScript c :: tr) { p with fate := .noScript } := by
  obtain ⟨hsent, htexts, hcount, hown, -⟩ := h.cons (e := .noScript c) rfl
  refine ⟨hsent, htexts, ?_, hown, fun outcome heq => ?_⟩
  · simpa [Pending.outstanding, hfate] using hcount
  · cases heq

/-- The text that is sent instead is that of the request's script. -/
theorem Pending.Sound.fallback (h : p.Sound R L c tr) (hfate : p.fate = .noScript) :
    Pending.Sound R L c (.fallback c :: tr)
      { p with command := .eval (R.text p.request.script), fate := .sent } := by
  obtain ⟨hsent, htexts, hcount, hown, -⟩ := h.cons (e := .fallback c) rfl
  refine ⟨hsent, fun script hmem => ?_, ?_, hown, fun outcome heq => ?_⟩
  · rcases List.mem_cons.mp hmem with heq | hmem
    · exact Command.eval.inj heq
    · exact htexts script (List.mem_cons_of_mem _ hmem)
  · simpa [Pending.outstanding, hfate] using hcount
  · cases heq

/-- An execution closes one that was open. -/
theorem Pending.Sound.execute {p' : Pending} {time : ℤ} {outcome : Except ScriptError Resp}
    (h : p.Sound R L c tr) (hrequest : p'.request = p.request)
    (htexts : ∀ script, Command.eval script ∈ p'.command :: p'.abandoned →
      Command.eval script ∈ p.command :: p.abandoned)
    (hclosed : p'.outstanding + 1 = p.outstanding)
    (hfate : p'.fate = .answered outcome ∨ p'.fate = p.fate) :
    p'.Sound R L c (.execute c (p.request.event L time outcome) :: tr) := by
  have hexecutions := @executions_cons_execute tr (p.request.event L time outcome) c c
  rw [if_pos rfl] at hexecutions
  refine ⟨?_, fun script hmem => ?_, ?_, fun e he => ?_, fun outcome' ha => ?_⟩
  · rw [hrequest]
    exact List.mem_cons_of_mem _ h.sent
  · rw [hrequest]
    exact h.texts script (htexts script hmem)
  · rw [hexecutions, List.length_cons]
    have hcount := h.count
    have hresends : resends c tr ≤ resends c (.execute c (p.request.event L time outcome) :: tr) :=
      resends_le_cons
    omega
  · rw [hexecutions] at he
    rw [hrequest]
    rcases List.mem_cons.mp he with rfl | he
    · exact ⟨_, _, rfl⟩
    · exact h.own e he
  · rw [hexecutions, hrequest]
    rcases hfate with hnew | hold
    · rw [hnew] at ha
      obtain rfl := Fate.answered.inj ha
      exact ⟨time, List.mem_cons_self⟩
    · obtain ⟨time', hmem⟩ := h.answered outcome' (hold ▸ ha)
      exact ⟨time', List.mem_cons_of_mem _ hmem⟩

/-- What the server runs for a command of a call is the text of its script. -/
theorem Faithful.text (h : Faithful R L tr s) (hcall : s.calls c = some p) {command : Command}
    {script : String} (hcommand : command ∈ p.command :: p.abandoned)
    (htext : s.text R p.request command = some script) : script = R.text p.request.script := by
  cases command with
  | evalsha => exact h.cache _ _ htext
  | eval sent =>
    obtain rfl := Option.some.inj htext
    exact (h.sound c p hcall).texts _ hcommand

/-- The server only remembers texts under their digests. -/
theorem Faithful.remember (h : Faithful R L tr s) (hcall : s.calls c = some p) {command : Command}
    (hcommand : command ∈ p.command :: p.abandoned) (n : ScriptName) (script : String)
    (hfind : s.remember R command (R.getSha n) = some script) : script = R.text n := by
  cases command with
  | evalsha => exact h.cache n script hfind
  | eval sent =>
    obtain rfl := (h.sound c p hcall).texts _ hcommand
    simp only [State.remember] at hfind
    by_cases heq : R.getSha n = R.sha1 (R.text p.request.script)
    · rw [heq, Function.update_self] at hfind
      rw [R.distinct n p.request.script heq, ← Option.some.inj hfind]
    · rw [Function.update_of_ne heq] at hfind
      exact h.cache n script hfind

/-- A call goes on, and the others stay where they are. Once it has returned, its answer stands. -/
theorem Faithful.move (h : Faithful R L tr s) {p' : Pending} (hcall : s.calls c = some p)
    (hother : ∀ c', c' ≠ c → executions c' (e :: tr) = executions c' tr)
    (hsound : p'.Sound R L c (e :: tr))
    (hkeep : p.waiting = false → p'.waiting = false ∧
      ∀ outcome, p.fate = .answered outcome → p'.fate = .answered outcome)
    (hdeliver : ∀ c' outcome, e = .deliver c' outcome →
      c' = c ∧ p'.fate = .answered outcome ∧ p'.waiting = false)
    (hfound : ∀ c', e ≠ .unknown c') {server' : Deployment.Server}
    {cache' : String → Option String}
    (hserver : (Deployment.system L).Run ((e :: tr).filterMap observe) server')
    (hcache : ∀ n script, cache' (R.getSha n) = some script → script = R.text n) :
    Faithful R L (e :: tr) ⟨server', cache', Function.update s.calls c (some p')⟩ := by
  refine ⟨hserver, hcache, fun c' hc' => ?_, fun c' q hq => ?_, fun c' outcome hmem => ?_,
    fun c' hmem => ?_⟩
  · by_cases heq : c' = c
    · subst heq
      simp only [Function.update_self] at hc'
      cases hc'
    · simp only [Function.update_of_ne heq] at hc'
      rw [hother c' heq, h.fresh c' hc']
  · by_cases heq : c' = c
    · subst heq
      simp only [Function.update_self] at hq
      obtain rfl := Option.some.inj hq
      exact hsound
    · simp only [Function.update_of_ne heq] at hq
      exact (h.sound c' q hq).cons (hother c' heq)
  · rcases List.mem_cons.mp hmem with heq | hmem
    · obtain ⟨rfl, hfate, hwait⟩ := hdeliver c' outcome heq.symm
      exact ⟨p', Function.update_self .., hfate, hwait⟩
    · obtain ⟨q, hq, hfate, hwait⟩ := h.delivered c' outcome hmem
      by_cases heq : c' = c
      · subst heq
        obtain rfl : p = q := Option.some.inj (hcall.symm.trans hq)
        obtain ⟨hwait', hfate'⟩ := hkeep hwait
        exact ⟨p', Function.update_self .., hfate' outcome hfate, hwait'⟩
      · exact ⟨q, (Function.update_of_ne heq ..).trans hq, hfate, hwait⟩
  · rcases List.mem_cons.mp hmem with heq | hmem
    · exact hfound c' heq.symm
    · exact h.found c' hmem

/-- The server runs a command of a call, the current one or an abandoned one. -/
theorem Faithful.execute (h : Faithful R L tr s) {p' : Pending} {command : Command}
    {script : String} (hcall : s.calls c = some p) (hcommand : command ∈ p.command :: p.abandoned)
    (htext : s.text R p.request command = some script)
    (hsound : p'.Sound R L c (.execute c (s.executed R L p.request script) :: tr))
    (hkeep : p.waiting = false → p'.waiting = false ∧
      ∀ outcome, p.fate = .answered outcome → p'.fate = .answered outcome) :
    Faithful R L (.execute c (s.executed R L p.request script) :: tr)
      (s.afterwards R L c p.request command script p') := by
  refine h.move hcall (fun c' hne => ?_) hsound hkeep (fun c' outcome heq => ?_)
    (fun c' heq => ?_) ?_ (h.remember hcall hcommand)
  · rw [executions_cons_execute, if_neg (Ne.symm hne)]
  · cases heq
  · cases heq
  · -- the text is the one of the request, so this is its call in the database
    obtain rfl := h.text hcall hcommand htext
    have hstep := p.request.step_event L s.server
    have hlua := R.runs p.request s.server.usec (p.request.invocation L)
    simp only [State.executed, State.run, hlua]
    exact h.server.step hstep

/-- A new call. The others keep their histories: none of them is at this number. -/
theorem Faithful.send {r : Request} (h : Faithful R L tr s) (hfresh : s.calls c = none) :
    Faithful R L (.send c r :: tr) (s.setCall c (.first r)) := by
  refine ⟨h.server, h.cache, fun c' hc' => ?_, fun c' p hp => ?_, fun c' outcome hmem => ?_,
    fun c' hmem => ?_⟩
  · by_cases heq : c' = c
    · subst heq
      simp only [State.setCall, Function.update_self] at hc'
      cases hc'
    · simp only [State.setCall, Function.update_of_ne heq] at hc'
      exact h.fresh c' hc'
  · by_cases heq : c' = c
    · subst heq
      simp only [State.setCall, Function.update_self] at hp
      obtain rfl := Option.some.inj hp
      exact .first (h.fresh c' hfresh)
    · simp only [State.setCall, Function.update_of_ne heq] at hp
      exact (h.sound c' p hp).cons rfl
  · obtain ⟨p, hp, hanswer⟩ := h.delivered c' outcome (List.mem_of_ne_of_mem (by simp) hmem)
    have hne : c' ≠ c := by
      rintro rfl
      rw [hfresh] at hp
      cases hp
    exact ⟨p, (Function.update_of_ne hne ..).trans hp, hanswer⟩
  · exact h.found c' (List.mem_of_ne_of_mem (by simp) hmem)

/-- **One step.** -/
theorem Faithful.step (h : Faithful R L tr s) (hstep : Step R L s e t) :
    Faithful R L (e :: tr) t := by
  cases hstep with
  | send c r hfresh => exact h.send hfresh
  | resend c p hcall hwait =>
    refine h.move hcall (fun c' hne => rfl) (h.sound c p hcall).resent (fun hover => ?_)
      (fun c' outcome heq => by cases heq) (fun c' heq => by cases heq) h.server h.cache
    rw [hwait] at hover
    cases hover
  -- the server runs the command the client waits for, or one that it has sent again since
  | execute c p script hcall hfate htext =>
    refine h.execute hcall List.mem_cons_self htext
      ((h.sound c p hcall).execute rfl (fun _ hmem => hmem) ?_ (.inl rfl))
      fun hwait => ⟨hwait, fun outcome heq => ?_⟩
    · simp [Pending.outstanding, hfate]
    · rw [hfate] at heq
      cases heq
  | late c p earlier command later script hcall habandoned htext =>
    have hcommand : command ∈ p.command :: p.abandoned := by
      rw [habandoned]
      simp
    refine h.execute hcall hcommand htext
      ((h.sound c p hcall).execute rfl (fun script hmem => ?_) ?_ (.inr rfl))
      fun hwait => ⟨hwait, fun outcome heq => heq⟩
    · rw [habandoned]
      simp only [List.mem_cons, List.mem_append] at hmem ⊢
      tauto
    · simp only [Pending.outstanding, habandoned, List.length_append, List.length_cons]
      omega
  | noScript c p hcall hfate htext =>
    refine h.move hcall (fun c' hne => rfl) ((h.sound c p hcall).noScript hfate)
      (fun hwait => ⟨hwait, fun outcome heq => ?_⟩) (fun c' outcome heq => by cases heq)
      (fun c' heq => by cases heq) h.server h.cache
    rw [hfate] at heq
    cases heq
  | fallback c p script hcall hwait hfate hscript =>
    rw [R.scriptForSha_getSha] at hscript
    obtain rfl := Option.some.inj hscript
    refine h.move hcall (fun c' hne => rfl) ((h.sound c p hcall).fallback hfate) (fun hover => ?_)
      (fun c' outcome heq => by cases heq) (fun c' heq => by cases heq) h.server h.cache
    rw [hwait] at hover
    cases hover
  -- every method sends the hash of a script that is registered
  | unknown c p hcall hwait hfate hscript =>
    rw [R.scriptForSha_getSha] at hscript
    cases hscript
  | deliver c p outcome hcall hwait hfate =>
    have hsound := ((h.sound c p hcall).cons (e := .deliver c outcome) rfl).returned
    refine h.move hcall (fun c' hne => rfl) hsound (fun _ => ⟨rfl, fun outcome' heq => heq⟩)
      (fun c' outcome' heq => ?_) (fun c' heq => by cases heq) h.server h.cache
    obtain ⟨rfl, rfl⟩ := Event.deliver.inj heq
    exact ⟨rfl, hfate, rfl⟩
  | lose c p hcall hwait =>
    have hsound := ((h.sound c p hcall).cons (e := .lose c) rfl).returned
    exact h.move hcall (fun c' hne => rfl) hsound (fun _ => ⟨rfl, fun outcome' heq => heq⟩)
      (fun c' outcome' heq => by cases heq) (fun c' heq => by cases heq) h.server h.cache
  -- a foreign script in the cache has another hash
  | scripts cache hcache =>
    refine ⟨h.server, fun n script hfind => ?_, h.fresh, fun c p hp => (h.sound c p hp).cons rfl,
      fun c outcome hmem => h.delivered c outcome (List.mem_of_ne_of_mem (by simp) hmem),
      fun c hmem => h.found c (List.mem_of_ne_of_mem (by simp) hmem)⟩
    rcases hcache _ script hfind with hold | ⟨hsha, hforeign⟩
    · exact h.cache n script hold
    · exact hforeign n hsha.symm
  | server e server he hstep =>
    exact ⟨h.server.step hstep, h.cache, h.fresh, fun c p hp => (h.sound c p hp).cons rfl,
      fun c outcome hmem => h.delivered c outcome (List.mem_of_ne_of_mem (by simp) hmem),
      fun c hmem => h.found c (List.mem_of_ne_of_mem (by simp) hmem)⟩

/-- The invariant holds in every run of the clients. -/
theorem faithful_of_run (h : (system R L).Run tr s) : Faithful R L tr s := by
  refine Transition.System.Run.invariant (I := Faithful R L) ?_
    (fun tr s e t _ ih hs => ih.step hs) h
  rintro s ⟨hserver, hcache, hcalls⟩
  refine ⟨.start hserver, fun n script hfind => ?_, fun _ _ => rfl, fun c p hp => ?_, ?_, ?_⟩
  · rw [hcache] at hfind
    cases hfind
  · rw [hcalls] at hp
    cases hp
  · simp
  · simp

/-- **Every command at most once, and its own script.** Whatever the server forgets, whichever
connections break and however often the client sends again, what the server executes is a run of the
shared database; a call is executed with its own script and arguments only, and no more often than
its command was sent; a call that returns has been executed, just once if nothing was sent again,
and returns what one of its executions was answered; and the adapter finds the text of every
digest. -/
theorem executed_per_send (h : (system R L).Run tr s) :
    (Deployment.system L).Run (tr.filterMap observe) s.server ∧
      (∀ c, (executions c tr).length ≤ 1 + resends c tr) ∧
      (∀ c, ∀ e ∈ executions c tr, ∃ r time outcome, .send c r ∈ tr ∧ e = r.event L time outcome) ∧
      (∀ c outcome, .deliver c outcome ∈ tr → ∃ r time, .send c r ∈ tr ∧
        r.event L time outcome ∈ executions c tr ∧
        (resends c tr = 0 → executions c tr = [r.event L time outcome])) ∧
      ∀ c, .unknown c ∉ tr := by
  have hfaithful := faithful_of_run h
  have hcount (c : ℕ) : (executions c tr).length ≤ 1 + resends c tr := by
    cases hcall : s.calls c with
    | none =>
      rw [hfaithful.fresh c hcall]
      exact Nat.zero_le _
    | some p => exact (Nat.le_add_right _ _).trans (hfaithful.sound c p hcall).count
  refine ⟨hfaithful.server, hcount, fun c e he => ?_, fun c outcome hmem => ?_, hfaithful.found⟩
  · cases hcall : s.calls c with
    | none =>
      rw [hfaithful.fresh c hcall] at he
      cases he
    | some p =>
      have hsound := hfaithful.sound c p hcall
      obtain ⟨time, outcome, rfl⟩ := hsound.own e he
      exact ⟨p.request, time, outcome, hsound.sent, rfl⟩
  · obtain ⟨p, hcall, hfate, -⟩ := hfaithful.delivered c outcome hmem
    have hsound := hfaithful.sound c p hcall
    obtain ⟨time, hexecuted⟩ := hsound.answered outcome hfate
    refine ⟨p.request, time, hsound.sent, hexecuted, fun hnone => ?_⟩
    -- one execution at most, and this is one
    have hone := hcount c
    rw [hnone] at hone
    obtain ⟨e, hes⟩ := List.length_eq_one_iff.mp
      (le_antisymm hone (List.length_pos_of_mem hexecuted))
    rw [hes] at hexecuted ⊢
    rw [List.mem_singleton.mp hexecuted]

end Step

/-! ## A server that knows no script -/

/-- Names in the place of texts and digests. -/
def ScriptName.key : ScriptName → String
  | acquire => "acquire"
  | release => "release"
  | refresh => "refresh"
  | cleanup => "cleanup"
  | status => "status"
  | rateAcquire => "rate_acquire"
  | rateAdjust => "rate_adjust"
  | rateStatus => "rate_status"
  | dispatchEnqueue => "dispatch_enqueue"
  | dispatchStatus => "dispatch_status"

/-- The programs by name; those of queues are not among them. -/
def namedProgram (usec : ℕ) (i : Invocation) : ScriptName → Script Resp
  | .acquire => Semaphore.Wire.acquireScript usec i.keys i.argv
  | .release => Semaphore.Wire.releaseScript i.keys i.argv
  | .refresh => Semaphore.Wire.refreshScript usec i.keys i.argv
  | .cleanup => Semaphore.Wire.cleanupScript usec i.keys i.argv
  | .status => Semaphore.Wire.statusScript usec i.keys i.argv
  | .rateAcquire => RateLimiter.Wire.rateAcquireScript usec i.keys i.argv
  | .rateAdjust => RateLimiter.Wire.rateAdjustScript usec i.keys i.argv
  | .rateStatus => RateLimiter.Wire.rateStatusScript usec i.keys i.argv
  | .dispatchEnqueue => stop .isNil
  | .dispatchStatus => stop .isNil

/-- A registry that has all its scripts. -/
def named : Registry where
  text := ScriptName.key
  sha1 := id
  lua script usec i :=
    ((ScriptName.all.find? fun n => n.key = script).map (namedProgram usec i)).getD (stop .isNil)
  distinct a b := by cases a <;> cases b <;> simp [ScriptName.key]
  runs r usec i := by
    rcases r with ⟨name, call⟩ | ⟨name, call⟩ <;> cases call <;> rfl

/-- The first call finds its script unknown and sends the text. The reply is lost, the client sends
the text again and gives up its first connection, and the server executes both. -/
theorem executed_per_send_resent : ∃ tr s time outcome, ∃ r : Request,
    (system named Deployment.shared).Run tr s ∧ Event.fallback 0 ∈ tr ∧
    Event.deliver 0 outcome ∈ tr ∧ r.event Deployment.shared time outcome ∈ executions 0 tr ∧
    (executions 0 tr).length = 2 ∧ resends 0 tr = 1 := by
  have hstart : (system named Deployment.shared).Run []
      ⟨⟨1000000, fun _ => none⟩, fun _ => none, fun _ => none⟩ :=
    .start ⟨⟨by decide, fun _ => rfl⟩, rfl, rfl⟩
  let r : Request := .semaphore "a" (.release "x")
  have hsend := hstart.step (.send _ 0 r rfl)
  have hunknown := hsend.step (.noScript _ 0 _ rfl rfl rfl)
  have hfallback := hunknown.step
    (.fallback _ 0 _ _ rfl rfl rfl (named.scriptForSha_getSha .release))
  have hresent := hfallback.step (.resend _ 0 _ rfl rfl)
  have hexecuted := hresent.step (.execute _ 0 _ _ rfl rfl rfl)
  have hlate := hexecuted.step (.late _ 0 _ [] _ [] _ rfl rfl rfl)
  have hdelivered := hlate.step (.deliver _ 0 _ _ rfl rfl rfl)
  obtain ⟨-, -, -, hanswer, -⟩ := executed_per_send hdelivered
  obtain ⟨r, time, -, hmem, -⟩ := hanswer 0 _ List.mem_cons_self
  exact ⟨_, _, time, _, r, hdelivered, by simp, List.mem_cons_self, hmem, rfl, rfl⟩

end RedisSemaphore.ScriptClient
