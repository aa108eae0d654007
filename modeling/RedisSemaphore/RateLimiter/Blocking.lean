import Mathlib.Algebra.Order.Floor.Ring
import Mathlib.Data.Rat.Floor
import Mathlib.Tactic.Linarith
import RedisSemaphore.RateLimiter.Resend
import RedisSemaphore.RateLimiter.RetryAfter

/-!
# A blocking acquire

`rate_limiter.py`: `acquire`, `aacquire` and `_next_wait`. A call attempts, is told how long to
wait, and sleeps or gives up. Other clients acquire and read the status meanwhile, so the wait it
was told is a lower bound only; `no_room_before` is that bound, and it survives whatever they do.

Clocks are in seconds and advance at one rate; the client's clock enters as a difference only, so
one clock serves for both. The server shows its clock in whole milliseconds (`_lua_resolve_now`),
and a script takes no time.
-/

namespace RedisSemaphore.RateLimiter

open Redis Transition

variable {κ ι : Type*}

/-- The settings of the wait loop, in seconds. -/
structure Patience where
  acquireTimeout : Option ℚ
  waitJitter : ℚ
  timeout_pos : ∀ timeout ∈ acquireTimeout, 0 < timeout
  jitter_nonneg : 0 ≤ waitJitter

/-- `_next_wait`, `elapsed` after the start: the sleep before the next attempt, or the `retry_after`
of the `RateLimitTimeoutError`. `jitter` is what `random.uniform` draws. -/
def nextWait (p : Patience) (retryAfterMs : ℤ) (elapsed jitter : ℚ) : Except ℚ ℚ :=
  let retryAfter : ℚ := retryAfterMs / 1000
  let delay := if 0 < p.waitJitter then retryAfter + jitter else retryAfter
  match p.acquireTimeout with
  | none => .ok delay
  | some timeout =>
    let remaining := timeout - elapsed
    if remaining < retryAfter then .error retryAfter else .ok (min delay remaining)

/-- What the server shows of its clock. -/
def serverMs (clock : ℚ) : ℤ := ⌊clock * 1000⌋

/-- Where a blocking acquire is. -/
inductive Phase
  | attempting
  | sleeping (wake : ℚ)
  | admitted
  | failed (retryAfter : ℚ)

/-- One blocking acquire and the server. -/
structure Scene (κ ι : Type*) [LinearOrder (Member ι)] where
  clock : ℚ
  server : Server κ ι
  phase : Phase

/-- What happens to them: an event on the server that is not the call's, time, an attempt of the
call, and the end of its sleep. -/
inductive Happening (κ ι : Type*)
  | other (e : Event κ ι)
  | advance (clock : ℚ)
  | attempt (jitter : ℚ)
  | wake

/-- The loop goes on from a reply at `clock`. -/
def respond (p : Patience) (start clock jitter : ℚ) (reply : AcquireReply) : Phase :=
  if reply.success then .admitted
  else match nextWait p reply.retryAfter (clock - start) jitter with
    | .error retryAfter => .failed retryAfter
    | .ok delay => .sleeping (clock + delay)

variable [DecidableEq κ] [LinearOrder (Member ι)]

/-- The reply to the call's script, executed now. -/
def attemptReply (cfg : Config κ) (identifier : ι) (cost : κ → ℕ) (s : Server κ ι) : AcquireReply :=
  (rateAcquire identifier s.time s.time (acquireArgs cfg cost) s.store).1

section System

variable (cfg : Config κ) (p : Patience) (identifier : ι) (cost : κ → ℕ) (start : ℚ)

/-- One step beside the blocking call: another call runs, the clock moves, or the loop makes an
attempt and sleeps for what it was told. -/
inductive BlockingStep (s : Scene κ ι) : Happening κ ι → Scene κ ι → Prop
  | other (e : Event κ ι) (server : Server κ ι) (hother : Unrelated identifier e)
      (hstep : Step cfg s.server e server) (htime : server.time = s.server.time) :
      BlockingStep s (.other e) { s with server := server }
  | advance (clock : ℚ) (hle : s.clock ≤ clock) :
      BlockingStep s (.advance clock)
        { s with clock := clock, server := { s.server with time := serverMs clock } }
  | attempt (jitter : ℚ) (hphase : s.phase = .attempting) (hnonneg : 0 ≤ jitter)
      (hjitter : jitter ≤ p.waitJitter) :
      BlockingStep s (.attempt jitter)
        { s with
          server := { s.server with
            store := (exec cfg (.acquire identifier cost) s.server.time s.server.store).2 }
          phase := respond p start s.clock jitter (attemptReply cfg identifier cost s.server) }
  | wake (wake : ℚ) (hphase : s.phase = .sleeping wake) (hle : wake ≤ s.clock) :
      BlockingStep s .wake { s with phase := .attempting }

/-- A blocking acquire that reads its clock at `start`, over a limiter with any history. -/
def blocking : System (Scene κ ι) (Happening κ ι) where
  start s := s.clock = start ∧ s.server.time = serverMs start ∧ s.phase = .attempting ∧
    (∃ tr, (system cfg).Run tr s.server ∧ ∀ e ∈ tr, PastAdjust e) ∧
    ∀ l ∈ cfg.limits, Unrecorded identifier (s.server.store l.name)
  step := BlockingStep cfg p identifier cost start

end System

/-! ## The server meanwhile -/

/-- A sound state of a server that has not recorded the request. -/
structure Serving (cfg : Config κ) (identifier : ι) (s : Server κ ι) : Prop where
  consistent : ∀ name, Consistent (s.store name)
  timely : ∀ l ∈ cfg.limits, Timely l s.time (s.store l.name)
  unrecorded : ∀ l ∈ cfg.limits, Unrecorded identifier (s.store l.name)

/-- What was charged before and is in its window now is still there. -/
def Filled (cfg : Config κ) (before : κ → LimitKeys ι) (s : Server κ ι) : Prop :=
  ∀ l ∈ cfg.limits, ∀ e ∈ (before l.name).log.value.entries, s.time - l.windowMs < e.score →
    e ∈ (s.store l.name).log.value.entries

section Limit

variable {identifier : ι} {call : Call κ ι} {r : Reply} {admitted : Bool} {time t : ℤ}
  {l : Limit κ} {keys : LimitKeys ι} {e : Scored (Member ι)}

omit [DecidableEq κ] in
/-- A script of another request adds entries of that request only. -/
theorem mem_of_mem_onLimit (hother : Unrelated identifier (.call t call r))
    (he : e ∈ (call.onLimit admitted time l keys).2.log.value.entries) :
    e ∈ keys.log.value.entries ∨ e.member.identifier ≠ identifier := by
  cases call with
  | adjust identifier' acquiredAt change => exact hother.elim
  | status => exact Or.inl (mem_log_evict.mp he).1
  | acquire identifier' cost =>
    cases admitted with
    | false => exact Or.inl (mem_log_evict.mp he).1
    | true =>
      rcases (mem_log_recordLimit _ _ _ _ ⟨l.name, l.limit, l.windowMs, cost l.name⟩ _
        l.window_pos).mp he with he | ⟨-, -, rfl⟩
      · exact Or.inl (mem_log_evict.mp he).1
      · exact Or.inr hother

omit [DecidableEq κ] in
/-- A script of another request takes no entry out of its window. -/
theorem mem_onLimit (hother : Unrelated identifier (.call t call r))
    (he : e ∈ keys.log.value.entries) (hwin : time - l.windowMs < e.score) :
    e ∈ (call.onLimit admitted time l keys).2.log.value.entries := by
  have hkept : ∀ ttlMs, e ∈ (evict time (time - l.windowMs) ttlMs keys).2.log.value.entries :=
    fun ttlMs => mem_log_evict.mpr ⟨he, hwin⟩
  cases call with
  | adjust identifier' acquiredAt change => exact hother.elim
  | status => exact hkept _
  | acquire identifier' cost =>
    cases admitted with
    | false => exact hkept _
    | true => exact (mem_log_recordLimit _ _ _ _ _ _ (by exact l.window_pos)).mpr (Or.inl (hkept _))

end Limit

section Server

variable {cfg : Config κ} {identifier : ι} {before : κ → LimitKeys ι} {s s' : Server κ ι}
  {e : Event κ ι}

omit [LinearOrder (Member ι)] [DecidableEq κ] in
/-- An adjustment of another permit is one of something that was admitted before. -/
theorem Unrelated.pastAdjust (h : Unrelated identifier e) : PastAdjust e := by
  cases e with
  | call t call r =>
    cases call with
    | acquire | status => trivial
    | adjust => exact h.elim
  | wait | expire | lose => trivial

/-- Others leave a sound state, and do not record the request. -/
theorem Serving.step (h : Serving cfg identifier s) (hother : Unrelated identifier e)
    (hstep : Step cfg s e s') : Serving cfg identifier s' := by
  refine ⟨consistent_step h.consistent hstep, timely_step h.timely hother.pastAdjust hstep,
    fun l hl => ?_⟩
  have hfresh := h.unrecorded l hl
  cases hstep with
  | call c =>
    by_cases htouched : ∃ l' ∈ c.touched cfg, l'.name = l.name
    · obtain ⟨l', hl', hname⟩ := htouched
      obtain rfl := List.inj_on_of_nodup_map cfg.nodup (touched_subset c hl') hl hname
      simp only [exec_touched _ _ _ _ hl']
      intro x hx
      exact (mem_of_mem_onLimit hother hx).elim (hfresh x) id
    · push Not at htouched
      simp only [exec_untouched _ _ _ _ htouched]
      exact hfresh
  | wait time hle => exact hfresh
  | expire name kind =>
    by_cases hname : l.name = name
    · subst hname
      simp only [Function.update_self]
      exact fun x hx => hfresh x (mem_of_mem_expire hx)
    · simp only [Function.update_of_ne hname]
      exact hfresh
  | lose name kind => exact hother.elim

/-- Others leave the windows filled. -/
theorem Filled.step (h : Filled cfg before s) (hserving : Serving cfg identifier s)
    (hother : Unrelated identifier e) (hstep : Step cfg s e s') : Filled cfg before s' := by
  intro l hl x hx hwin
  cases hstep with
  | call c =>
    have hkept := h l hl x hx hwin
    by_cases htouched : ∃ l' ∈ c.touched cfg, l'.name = l.name
    · obtain ⟨l', hl', hname⟩ := htouched
      obtain rfl := List.inj_on_of_nodup_map cfg.nodup (touched_subset c hl') hl hname
      simp only [exec_touched _ _ _ _ hl']
      exact mem_onLimit hother hkept hwin
    · push Not at htouched
      simp only [exec_untouched _ _ _ _ htouched]
      exact hkept
  | wait time hle =>
    apply h l hl x hx
    simp only at hwin
    omega
  | expire name kind =>
    have hkept := h l hl x hx hwin
    by_cases hname : l.name = name
    · subst hname
      simp only [Function.update_self]
      exact (hserving.timely l hl).mem_expire kind hkept hwin
    · simp only [Function.update_of_ne hname]
      exact hkept
  | lose name kind => exact hother.elim

omit [DecidableEq κ] in
/-- Time takes nothing away from a sound state. -/
theorem Serving.wait (h : Serving cfg identifier s) {time : ℤ} (hle : s.time ≤ time) :
    Serving cfg identifier { s with time := time } :=
  ⟨h.consistent, fun l hl => (h.timely l hl).mono hle, h.unrecorded⟩

omit [DecidableEq κ] in
/-- As time passes fewer entries are in their window. -/
theorem Filled.wait (h : Filled cfg before s) {time : ℤ} (hle : s.time ≤ time) :
    Filled cfg before { s with time := time } := by
  intro l hl x hx hwin
  apply h l hl x hx
  simp only at hwin
  omega

/-- A denied attempt of the call itself. -/
theorem Serving.denied (h : Serving cfg identifier s) {cost : κ → ℕ}
    (hdenied : (attemptReply cfg identifier cost s).success = false) :
    Serving cfg identifier
        { s with store := (exec cfg (.acquire identifier cost) s.time s.store).2 } ∧
      Filled cfg s.store
        { s with store := (exec cfg (.acquire identifier cost) s.time s.store).2 } := by
  have hstep : Step cfg s _ _ := .call s (.acquire identifier cost)
  have hpast : PastAdjust (.call s.time (.acquire identifier cost)
    (exec cfg (.acquire identifier cost) s.time s.store).1) := trivial
  have haged : ∀ l ∈ cfg.limits, Aged l (s.store l.name) s.time
      ((exec cfg (.acquire identifier cost) s.time s.store).2 l.name) := fun l hl =>
    aged_denied hdenied hl
  refine ⟨⟨consistent_step h.consistent hstep, timely_step h.timely hpast hstep, ?_⟩, ?_⟩
  · exact fun l hl x hx => h.unrecorded l hl x ((haged l hl).old x hx)
  · exact fun l hl => (haged l hl).kept

omit [LinearOrder (Member ι)] [DecidableEq κ] in
/-- Fewer entries cost less. -/
theorem sumCosts_le_of_subset {entries entries' : List (Scored (Member ι))}
    (hnodup : entries.Nodup) (h : entries ⊆ entries') : sumCosts entries ≤ sumCosts entries' := by
  obtain ⟨sub, hperm, hsub⟩ := List.subperm_of_subset hnodup h
  unfold sumCosts
  calc (entries.map fun e => memberCost e.member).sum
      = (sub.map fun e => memberCost e.member).sum := ((hperm.map _).sum_eq).symm
    _ ≤ (entries'.map fun e => memberCost e.member).sum := by
      apply (hsub.map _).sum_le_sum
      intro x hx
      obtain ⟨e, -, rfl⟩ := List.mem_map.mp hx
      exact Int.natCast_nonneg _

omit [DecidableEq κ] in
/-- Windows that are still filled have no more room. -/
theorem Filled.hasRoom (h : Filled cfg before s) {cost : κ → ℕ} {l : Limit κ}
    (hl : l ∈ cfg.limits) (hroom : HasRoom cost s.time s.store l) :
    HasRoom cost s.time before l := by
  intro hcost
  have hle : sumAfter (s.time - l.windowMs) (before l.name).log.value.entries ≤
      sumAfter (s.time - l.windowMs) (s.store l.name).log.value.entries := by
    apply sumCosts_le_of_subset ((List.Nodup.of_map _ (before l.name).log.value.nodup).filter _)
    intro e he
    rw [List.mem_filter, decide_eq_true_eq] at he ⊢
    exact ⟨h l hl e he.1 he.2, he.2⟩
  have := hroom hcost
  omega

/-- **The wait is a lower bound.** After an attempt that was told to wait, an attempt that is
admitted comes no earlier than that. -/
theorem no_room_before {later : Server κ ι} {cost : κ → ℕ} (hserving : Serving cfg identifier s)
    (hcost : ∀ l ∈ cfg.limits, cost l.name ≤ l.limit) (hle : s.time ≤ later.time)
    (hlater : Serving cfg identifier later) (hfilled : Filled cfg s.store later)
    (hadmitted : (attemptReply cfg identifier cost later).success = true) :
    s.time + (attemptReply cfg identifier cost s).retryAfter ≤ later.time := by
  have hroom : ∀ l ∈ cfg.limits, HasRoom cost later.time later.store l := by
    intro l hl
    by_contra hfull
    have hdenied := (denied_iff hlater.consistent hcost hlater.unrecorded).mpr ⟨l, hl, hfull⟩
    exact Bool.false_ne_true (hdenied.symm.trans hadmitted)
  have hwait : (attemptReply cfg identifier cost s).retryAfter ≤ later.time - s.time := by
    apply (retryAfter_le_iff hserving.consistent hcost hserving.unrecorded (by omega)).mpr
    intro l hl
    rw [add_sub_cancel]
    exact hfilled.hasRoom hl (hroom l hl)
  omega

end Server

/-! ## The wait loop -/

section Loop

variable {p : Patience} {retryAfterMs : ℤ} {elapsed jitter timeout : ℚ}

/-- The call gives up when less time remains than it has to wait. -/
theorem nextWait_error {retryAfter : ℚ} (htimeout : p.acquireTimeout = some timeout)
    (h : nextWait p retryAfterMs elapsed jitter = .error retryAfter) :
    timeout - elapsed < retryAfterMs / 1000 := by
  simp only [nextWait, htimeout] at h
  split at h
  · rename_i hlt
    exact hlt
  · cases h

/-- A sleep is not negative, and ends by the timeout. -/
theorem nextWait_ok {delay : ℚ} (htimeout : p.acquireTimeout = some timeout)
    (hjitter : 0 ≤ jitter) (hpos : 0 ≤ retryAfterMs)
    (h : nextWait p retryAfterMs elapsed jitter = .ok delay) :
    0 ≤ delay ∧ delay ≤ timeout - elapsed := by
  have hretry : (0 : ℚ) ≤ retryAfterMs / 1000 := by
    have : (0 : ℚ) ≤ retryAfterMs := by exact_mod_cast hpos
    positivity
  simp only [nextWait, htimeout] at h
  split at h
  · cases h
  · rename_i hle
    obtain rfl := Except.ok.inj h
    rw [not_lt] at hle
    refine ⟨le_min ?_ (hretry.trans hle), min_le_right _ _⟩
    split
    · linarith
    · exact hretry

end Loop

section Runs

variable {cfg : Config κ} {p : Patience} {identifier : ι} {cost : κ → ℕ} {start timeout : ℚ}
  {before : Server κ ι} {s s₁ s' : Scene κ ι} {tr : List (Happening κ ι)}

/-- At every moment of a blocking acquire that has not been admitted. -/
structure Waits (cfg : Config κ) (identifier : ι) (start : ℚ) (s : Scene κ ι) : Prop where
  begun : start ≤ s.clock
  time : s.server.time = serverMs s.clock
  serving : s.phase ≠ .admitted → Serving cfg identifier s.server

/-- The server's milliseconds do not run backwards. -/
theorem serverMs_mono {a b : ℚ} (h : a ≤ b) : serverMs a ≤ serverMs b :=
  Int.floor_mono (by linarith)

/-- **One step.** Attempts that are refused leave the state sound, and others do not record this
request. -/
theorem Waits.step (h : Waits cfg identifier start s) {e : Happening κ ι}
    (hstep : BlockingStep cfg p identifier cost start s e s') : Waits cfg identifier start s' := by
  cases hstep with
  | other e server hother hstep htime =>
    exact ⟨h.begun, htime.trans h.time, fun hphase => (h.serving hphase).step hother hstep⟩
  | advance clock hle =>
    refine ⟨h.begun.trans hle, rfl, fun hphase => (h.serving hphase).wait ?_⟩
    rw [h.time]
    exact serverMs_mono hle
  | attempt jitter hphase hnonneg hjitter =>
    refine ⟨h.begun, h.time, fun hdenied => ?_⟩
    have hserving := h.serving (by rw [hphase]; simp)
    cases hsuccess : (attemptReply cfg identifier cost s.server).success with
    | false => exact (hserving.denied hsuccess).1
    | true =>
      simp only [respond, hsuccess, if_true] at hdenied
      exact absurd rfl hdenied
  | wake wake hphase hle =>
    exact ⟨h.begun, h.time, fun _ => h.serving (by rw [hphase]; simp)⟩

/-- So it is at every moment of the call. -/
theorem waits_of_run (h : (blocking cfg p identifier cost start).Run tr s) :
    Waits cfg identifier start s := by
  refine System.Run.invariant (I := fun _ s => Waits cfg identifier start s) ?_
    (fun _ _ _ _ _ ih hs => ih.step hs) h
  rintro s ⟨hclock, htime, -, ⟨tr, hrun, hpast⟩, hfresh⟩
  refine ⟨hclock.ge, ?_, fun _ => ⟨consistent_of_run hrun, timely_of_run hrun hpast, hfresh⟩⟩
  rw [htime, hclock]

/-- What holds after the call has given up on the state `before`. -/
structure GivenUp (cfg : Config κ) (before : Server κ ι) (s : Scene κ ι) : Prop where
  ended : ∃ retryAfter, s.phase = .failed retryAfter
  later : before.time ≤ s.server.time
  filled : Filled cfg before.store s.server

/-- After the call has given up it makes no attempt, and what was charged stays in the log while
its window lasts. -/
theorem GivenUp.step (h : GivenUp cfg before s) (hwaits : Waits cfg identifier start s)
    {e : Happening κ ι} (hstep : BlockingStep cfg p identifier cost start s e s') :
    GivenUp cfg before s' := by
  obtain ⟨retryAfter, hover⟩ := h.ended
  have hserving := hwaits.serving (by rw [hover]; simp)
  cases hstep with
  | other e server hother hstep htime =>
    exact ⟨h.ended, h.later.trans_eq htime.symm, h.filled.step hserving hother hstep⟩
  | advance clock hle =>
    have htime : s.server.time ≤ serverMs clock := by
      rw [hwaits.time]
      exact serverMs_mono hle
    exact ⟨h.ended, h.later.trans htime, h.filled.wait htime⟩
  | attempt jitter hphase hnonneg hjitter =>
    rw [hover] at hphase
    cases hphase
  | wake wake hphase hle =>
    rw [hover] at hphase
    cases hphase

/-- So it is from the moment it gives up on. -/
theorem givenUp_of_path (hwaits : Waits cfg identifier start s₁) (hover : GivenUp cfg before s₁)
    (hpath : (blocking cfg p identifier cost start).Path s₁ tr s) :
    Waits cfg identifier start s ∧ GivenUp cfg before s :=
  System.Path.invariant
    (I := fun _ s => Waits cfg identifier start s ∧ GivenUp cfg before s) ⟨hwaits, hover⟩
    (fun _ _ _ _ _ ih hs => ⟨ih.1.step hs, ih.2.step ih.1 hs⟩) hpath

/-- **Failing fast is at most a millisecond early.** A sleep is not negative and ends by `start +
timeout`. After a `RateLimitTimeoutError` no execution of the call's script up to `start + timeout`
would be admitted, but for those in the fraction of a millisecond before it by which the server
cuts the time of the last attempt. -/
theorem fails_fast (h : (blocking cfg p identifier cost start).Run tr s)
    (hcost : ∀ l ∈ cfg.limits, cost l.name ≤ l.limit) (htimeout : p.acquireTimeout = some timeout)
    {jitter : ℚ} (hstep : BlockingStep cfg p identifier cost start s (.attempt jitter) s₁) :
    (∀ wake, s₁.phase = .sleeping wake → s.clock ≤ wake ∧ wake ≤ start + timeout) ∧
    ∀ retryAfter, s₁.phase = .failed retryAfter →
      ∀ tr' later, (blocking cfg p identifier cost start).Path s₁ tr' later →
        (attemptReply cfg identifier cost later.server).success = true →
        start + timeout - Int.fract (s.clock * 1000) / 1000 < later.clock := by
  have hwaits := waits_of_run h
  have hwaits₁ := hwaits.step hstep
  cases hstep with
  | attempt jitter hphase hnonneg hjitter =>
    have hserving := hwaits.serving (by rw [hphase]; simp)
    cases hsuccess : (attemptReply cfg identifier cost s.server).success with
    | true => exact ⟨fun wake hw => by simp [respond, hsuccess] at hw,
        fun retryAfter hf => by simp [respond, hsuccess] at hf⟩
    | false =>
      have hwait := success_eq_false_iff.mp hsuccess
      simp only [respond, hsuccess, Bool.false_eq_true, if_false]
      -- the wait fits into the timeout, or the call gives up now
      cases hnext : nextWait p (attemptReply cfg identifier cost s.server).retryAfter
          (s.clock - start) jitter with
      | ok delay =>
        obtain ⟨hdelay, hends⟩ := nextWait_ok htimeout hnonneg hwait.le hnext
        refine ⟨fun wake hw => ?_, fun retryAfter hf => (nomatch hf)⟩
        obtain rfl := Phase.sleeping.inj hw
        constructor <;> linarith
      | error retryAfter =>
        refine ⟨fun wake hw => (nomatch hw), fun _ _ tr' later hpath hadmitted => ?_⟩
        have hremaining := nextWait_error htimeout hnext
        simp only [respond, hsuccess, Bool.false_eq_true, if_false, hnext] at hwaits₁ hpath
        obtain ⟨hwaits', hgiven⟩ : _ ∧ GivenUp cfg s.server later := givenUp_of_path hwaits₁
          ⟨⟨retryAfter, rfl⟩, le_rfl, (hserving.denied hsuccess).2⟩ hpath
        obtain ⟨retryAfter', hover⟩ := hgiven.ended
        -- no attempt fits before the wait is over, and the server's clock is the caller's, rounded
        -- down
        have hbound := no_room_before hserving hcost hgiven.later
          (hwaits'.serving (by rw [hover]; simp)) hgiven.filled hadmitted
        rw [hwaits.time, hwaits'.time, serverMs, serverMs] at hbound
        have hcast : ((⌊s.clock * 1000⌋ + (attemptReply cfg identifier cost s.server).retryAfter :
            ℤ) : ℚ) ≤ (⌊later.clock * 1000⌋ : ℤ) := Int.cast_le.mpr hbound
        have hfloor := Int.floor_le (later.clock * 1000)
        have hfract := Int.floor_add_fract (s.clock * 1000)
        push_cast at hcast
        linarith

end Runs

/-- A timeout of 599.5 ms, and no jitter. -/
def shortPatience : Patience where
  acquireTimeout := some 0.5995
  waitJitter := 0
  timeout_pos := by simp; norm_num
  jitter_nonneg := le_rfl

/-- Ten units of a window of ten, charged at 1000 ms. -/
def fullStore : ℕ → LimitKeys ℕ :=
  (exec tenPerSecond (.acquire 7 fun _ => 10) 1000 fun _ => LimitKeys.initial).2

/-- A call that starts at 1.4009 s, over the full window. -/
def fullScene : Scene ℕ ℕ := ⟨1.4009, ⟨1400, fullStore⟩, .attempting⟩

/-- It has given up: it was told to wait 600 ms, and 599.5 remained. -/
def fullScene' : Scene ℕ ℕ :=
  ⟨1.4009, ⟨1400, (exec tenPerSecond (.acquire 9 fiveUnits) 1400 fullStore).2⟩,
    .failed (600 / 1000)⟩

/-- The window is full when the call starts. -/
theorem fullScene_run :
    (blocking tenPerSecond shortPatience 9 fiveUnits 1.4009).Run [] fullScene := by
  have h₀ : (system tenPerSecond).Run [] (⟨1000, fun _ => LimitKeys.initial⟩ : Server ℕ ℕ) :=
    .start rfl
  have h₁ := h₀.step (.call _ (.acquire 7 fun _ => 10))
  have h₂ := h₁.step (.wait _ 1400 (by decide))
  refine .start ⟨rfl, ?_, rfl, ⟨_, h₂, by simp [PastAdjust]⟩, ?_⟩
  · norm_num [fullScene, serverMs]
  · simp only [Unrecorded]
    decide

/-- Its first attempt is refused, and the wait it is told is longer than its patience. -/
theorem fullScene_attempt : BlockingStep tenPerSecond shortPatience 9 fiveUnits 1.4009 fullScene
    (.attempt 0) fullScene' := by
  have hreply : attemptReply tenPerSecond 9 fiveUnits fullScene.server
      = ⟨false, 600, 1400, [10]⟩ := by decide
  have hphase : respond shortPatience 1.4009 fullScene.clock 0
      (attemptReply tenPerSecond 9 fiveUnits fullScene.server) = .failed (600 / 1000) := by
    rw [hreply]
    norm_num [respond, nextWait, shortPatience, fullScene]
  have hstep : BlockingStep tenPerSecond shortPatience 9 fiveUnits 1.4009 fullScene
      (.attempt 0) _ := .attempt 0 rfl le_rfl le_rfl
  rwa [hphase] at hstep

/-- The scene 599.3 ms later. -/
def lateScene : Scene ℕ ℕ := ⟨2.0002, ⟨2000, fullScene'.server.store⟩, fullScene'.phase⟩

/-- The clock moves on. -/
theorem lateScene_path : (blocking tenPerSecond shortPatience 9 fiveUnits 1.4009).Path fullScene'
    [.advance 2.0002] lateScene := by
  have hle : fullScene'.clock ≤ 2.0002 := by norm_num [fullScene']
  have hms : serverMs 2.0002 = 2000 := by norm_num [serverMs]
  have hstep : BlockingStep tenPerSecond shortPatience 9 fiveUnits 1.4009 fullScene'
      (.advance 2.0002) _ := .advance 2.0002 hle
  rw [hms] at hstep
  exact .step .refl hstep

/-- An attempt now would be admitted. -/
theorem lateScene_admitted :
    (attemptReply tenPerSecond 9 fiveUnits lateScene.server).success = true := by
  decide

/-- No execution is admitted in the first 599.1 ms after this error. -/
theorem fails_fast_full :
    (attemptReply tenPerSecond 9 fiveUnits lateScene.server).success = true ∧
      1.4009 + 0.5995 - Int.fract (1.4009 * 1000 : ℚ) / 1000 < lateScene.clock :=
  ⟨lateScene_admitted, (fails_fast fullScene_run (by decide) rfl fullScene_attempt).2 _ rfl _ _
    lateScene_path lateScene_admitted⟩

/-- The server shows 1400 ms at 1.4009 s, so the wait of 600 ms ends 0.9 ms early on the clock: an
execution 599.3 ms later, at 2000 ms, is admitted. -/
theorem fails_fast_floor :
    ∃ tr s s₁, (blocking tenPerSecond shortPatience 9 fiveUnits 1.4009).Run tr s ∧
      BlockingStep tenPerSecond shortPatience 9 fiveUnits 1.4009 s (.attempt 0) s₁ ∧
      (∃ retryAfter, s₁.phase = .failed retryAfter) ∧
      ∃ tr' later, (blocking tenPerSecond shortPatience 9 fiveUnits 1.4009).Path s₁ tr' later ∧
        s₁.clock ≤ later.clock ∧ later.clock ≤ 1.4009 + 0.5995 ∧
        (attemptReply tenPerSecond 9 fiveUnits later.server).success = true :=
  ⟨_, _, _, fullScene_run, fullScene_attempt, ⟨_, rfl⟩, _, _, lateScene_path,
    by norm_num [fullScene', lateScene], by norm_num [lateScene], lateScene_admitted⟩

end RedisSemaphore.RateLimiter
