import RedisSemaphore.Semaphore.Instance

/-!
# The life of a heartbeat

An acquire that succeeds starts a heartbeat only where the instance has none. The object stays in
place when its loop declares the loss and ends, until a release or a refresh that finds the slot
gone clears the field. `spent` reads off a trace whether the heartbeat in place is such a leftover,
and `heartbeat_running_iff` shows that this decides whether a granted acquire is kept alive.
-/

namespace RedisSemaphore.Client

open Transition

variable {ι C : Type*} {cfg : Config}

/-- The instance owns a heartbeat of this API that goes on refreshing. -/
def HeartbeatRunning (m : Machine ι C) (api : Api) : Prop :=
  ∃ k h, m.inst.heartbeat api = some k ∧ m.loops[k]? = some h ∧ h.Running

/-- Since the field was last clear, the heartbeat of the instance has declared the lock lost, or a
call has begun to stop it. -/
def spent (api : Api) : List (Event ι C) → Bool
  | [] => false
  | .halt _ op :: tr => decide (op.api = api) || spent api tr
  | .dropped _ op _ :: tr => if op.api = api then false else spent api tr
  | .lost _ api' owned _ :: tr => decide (api' = api) && owned || spent api tr
  | .enter _ _ :: tr => spent api tr
  | .proceed _ _ :: tr => spent api tr
  | .leave _ _ _ :: tr => spent api tr
  | .beat _ :: tr => spent api tr
  | .listen :: tr => spent api tr

/-! ## What can happen to the heartbeats -/

/-- The loop has another refresh ahead of it, or in flight. -/
def Loop.GoesOn (l : Loop) : Prop := l = .sleeping ∨ l = .refreshing

/-- The five ways of touching the fields and the loops, and the sixth of leaving them alone. -/
inductive Move (m : Machine ι C) : Event ι C → Machine ι C → Prop
  | kept {e : Event ι C} {m' : Machine ι C}
      (hevent : ∀ api tr, spent api (e :: tr) = spent api tr)
      (hbeat : m'.inst.heartbeat = m.inst.heartbeat) (hloops : m'.loops = m.loops) : Move m e m'
  | started {c : C} {api : Api} {blocking : Bool} {m' : Machine ι C} {h : Heartbeat ι}
      (hnone : m.inst.heartbeat api = none)
      (hbeat : m'.inst.heartbeat = Function.update m.inst.heartbeat api (some m.loops.length))
      (hloops : m'.loops = m.loops ++ [h])
      (hnew : h.api = api ∧ h.lockLost = false ∧ h.stopEvent = false ∧ h.loop.GoesOn) :
      Move m (.leave c (.acquire api blocking) (.returned true)) m'
  | halted {c : C} {op : Op} {k : ℕ} {m' : Machine ι C}
      (howned : m.inst.heartbeat op.api = some k) (hbeat : m'.inst.heartbeat = m.inst.heartbeat)
      (hloops : m'.loops = m.loops.modify k fun h => { h with stopEvent := true }) :
      Move m (.halt c op) m'
  | dropped {c : C} {op : Op} {out : Option Outcome} {m' : Machine ι C}
      (hbeat : m'.inst.heartbeat = Function.update m.inst.heartbeat op.api none)
      (hloops : m'.loops = m.loops) : Move m (.dropped c op out) m'
  | progressed {k : ℕ} {h : Heartbeat ι} {l : Loop} {m' : Machine ι C}
      (hk : m.loops[k]? = some h) (hbeat : m'.inst.heartbeat = m.inst.heartbeat)
      (hloops : m'.loops = m.loops.modify k fun h => { h with loop := l })
      (hloop : h.loop.GoesOn ∧ l.GoesOn ∨ ¬ l.GoesOn ∧ (¬ h.loop.GoesOn ∨ h.stopEvent = true)) :
      Move m (.beat k) m'
  | declared {k : ℕ} {h : Heartbeat ι} {l : Loop} {m' : Machine ι C}
      (hk : m.loops[k]? = some h) (hbeat : m'.inst.heartbeat = m.inst.heartbeat)
      (hloops : m'.loops = m.loops.modify k fun h => { h with lockLost := true, loop := l })
      (hloop : ¬ l.GoesOn) : Move m (m.lostEvent k h) m'

/-! ## The invariant -/

/-- A loop ends by declaring the loss or by being stopped. -/
structure Heartbeat.Sound (h : Heartbeat ι) : Prop where
  lost : h.lockLost = true → ¬ h.loop.GoesOn
  ended : ¬ h.loop.GoesOn → h.lockLost = true ∨ h.stopEvent = true

/-- A sound heartbeat runs until it has declared the loss or is told to stop. -/
theorem Heartbeat.Sound.running_iff {h : Heartbeat ι} (hs : h.Sound) :
    h.Running ↔ ¬ (h.lockLost = true ∨ h.stopEvent = true) := by
  constructor
  · rintro ⟨hgoes, hstop⟩ (hlost | hstop')
    · exact hs.lost hlost hgoes
    · rw [hstop] at hstop'
      cases hstop'
  · intro hn
    refine ⟨by_contra fun hgoes => hn (hs.ended hgoes), ?_⟩
    exact Bool.eq_false_iff.mpr fun hstop => hn (Or.inr hstop)

/-- What the trace says about the heartbeat in place. -/
structure HeartbeatInv (tr : List (Event ι C)) (m : Machine ι C) : Prop where
  sound : ∀ (k : ℕ) (h : Heartbeat ι), m.loops[k]? = some h → h.Sound
  owned : ∀ api k, m.inst.heartbeat api = some k → ∃ h, m.loops[k]? = some h ∧ h.api = api ∧
    (spent api tr = true ↔ h.lockLost = true ∨ h.stopEvent = true)
  clear : ∀ api, m.inst.heartbeat api = none → spent api tr = false

/-- A step that touches neither the field nor a loop. -/
theorem HeartbeatInv.kept {tr : List (Event ι C)} {m m' : Machine ι C} {e : Event ι C}
    (h : HeartbeatInv tr m) (hevent : ∀ api tr, spent api (e :: tr) = spent api tr)
    (hbeat : m'.inst.heartbeat = m.inst.heartbeat) (hloops : m'.loops = m.loops) :
    HeartbeatInv (e :: tr) m' := by
  refine ⟨?_, ?_, ?_⟩
  · rw [hloops]
    exact h.sound
  · rw [hloops, hbeat]
    intro api
    rw [hevent]
    exact h.owned api
  · rw [hbeat]
    intro api
    rw [hevent]
    exact h.clear api

/-- A granted acquire starts a heartbeat where there is none, and then the field is not spent. -/
theorem HeartbeatInv.started {tr : List (Event ι C)} {m m' : Machine ι C} {c : C} {api : Api}
    {blocking : Bool} {new : Heartbeat ι} (h : HeartbeatInv tr m)
    (hnone : m.inst.heartbeat api = none)
    (hbeat : m'.inst.heartbeat = Function.update m.inst.heartbeat api (some m.loops.length))
    (hloops : m'.loops = m.loops ++ [new])
    (hnew : new.api = api ∧ new.lockLost = false ∧ new.stopEvent = false ∧ new.loop.GoesOn) :
    HeartbeatInv (.leave c (.acquire api blocking) (.returned true) :: tr) m' := by
  obtain ⟨hapi, hlost, hstop, hgoes⟩ := hnew
  have hlast : (m.loops ++ [new])[m.loops.length]? = some new := by simp
  have hold : ∀ k x, m.loops[k]? = some x → (m.loops ++ [new])[k]? = some x := fun k x hk => by
    rw [List.getElem?_append_left (List.getElem?_eq_some_iff.mp hk).1]
    exact hk
  -- the new loop is appended, so the old ones keep their numbers
  refine ⟨?_, ?_, ?_⟩
  · intro k x hk
    rw [hloops, List.getElem?_append] at hk
    split at hk
    · exact h.sound k x hk
    · obtain rfl : new = x := by
        rcases hj : k - m.loops.length with _ | j
        · simpa [hj] using hk
        · simp [hj] at hk
      exact ⟨fun hl => absurd hl (by simp [hlost]), fun hn => absurd hgoes hn⟩
  · intro api' k hk
    rw [hbeat] at hk
    rw [hloops]
    by_cases heq : api' = api
    · subst heq
      rw [Function.update_self] at hk
      obtain rfl := Option.some.inj hk
      refine ⟨new, hlast, hapi, ?_⟩
      simp [spent, h.clear _ hnone, hlost, hstop]
    · rw [Function.update_of_ne heq] at hk
      obtain ⟨x, hx, hrest⟩ := h.owned api' k hk
      exact ⟨x, hold k x hx, hrest⟩
  · intro api' hn
    rw [hbeat] at hn
    by_cases heq : api' = api
    · subst heq
      rw [Function.update_self] at hn
      cases hn
    · rw [Function.update_of_ne heq] at hn
      exact h.clear api' hn

/-- A call that stops the heartbeat spends the field before it clears it. -/
theorem HeartbeatInv.halted {tr : List (Event ι C)} {m m' : Machine ι C} {c : C} {op : Op} {k : ℕ}
    (h : HeartbeatInv tr m) (howned : m.inst.heartbeat op.api = some k)
    (hbeat : m'.inst.heartbeat = m.inst.heartbeat)
    (hloops : m'.loops = m.loops.modify k fun h => { h with stopEvent := true }) :
    HeartbeatInv (.halt c op :: tr) m' := by
  obtain ⟨x, hx, hxapi, -⟩ := h.owned _ _ howned
  refine ⟨?_, ?_, ?_⟩
  · intro j y hy
    rw [hloops, List.getElem?_modify] at hy
    obtain ⟨y₀, hy₀, rfl⟩ := Option.map_eq_some_iff.mp hy
    have hs := h.sound j y₀ hy₀
    split
    · exact ⟨hs.lost, fun _ => Or.inr rfl⟩
    · exact hs
  · intro api j hj
    rw [hbeat] at hj
    obtain ⟨y, hy, hyapi, hspent⟩ := h.owned api j hj
    rw [hloops, List.getElem?_modify, hy]
    refine ⟨_, rfl, ?_⟩
    -- the loop that is told to stop is the one in the field of this API, and of no other
    by_cases hkj : k = j
    · subst hkj
      rw [hx] at hy
      obtain rfl := Option.some.inj hy
      simp [spent, ← hxapi, ← hyapi]
    · have hne : op.api ≠ api := by
        rintro rfl
        rw [howned] at hj
        exact hkj (Option.some.inj hj)
      simpa [spent, hkj, hne, hyapi] using hspent
  · intro api hn
    rw [hbeat] at hn
    have hne : op.api ≠ api := by
      rintro rfl
      rw [howned] at hn
      cases hn
    simpa [spent, hne] using h.clear api hn

/-- A call that clears the field leaves it fresh. -/
theorem HeartbeatInv.dropped {tr : List (Event ι C)} {m m' : Machine ι C} {c : C} {op : Op}
    {out : Option Outcome} (h : HeartbeatInv tr m)
    (hbeat : m'.inst.heartbeat = Function.update m.inst.heartbeat op.api none)
    (hloops : m'.loops = m.loops) : HeartbeatInv (.dropped c op out :: tr) m' := by
  refine ⟨hloops ▸ h.sound, ?_, ?_⟩
  · intro api k hk
    rw [hbeat] at hk
    by_cases heq : api = op.api
    · rw [heq, Function.update_self] at hk
      cases hk
    · rw [Function.update_of_ne heq] at hk
      rw [hloops]
      simpa [spent, Ne.symm heq] using h.owned api k hk
  · intro api hn
    rw [hbeat] at hn
    by_cases heq : api = op.api
    · simp [spent, heq]
    · rw [Function.update_of_ne heq] at hn
      simpa [spent, Ne.symm heq] using h.clear api hn

/-- A loop goes on. -/
theorem HeartbeatInv.progressed {tr : List (Event ι C)} {m m' : Machine ι C} {k : ℕ}
    {x : Heartbeat ι} {l : Loop} (h : HeartbeatInv tr m) (hk : m.loops[k]? = some x)
    (hbeat : m'.inst.heartbeat = m.inst.heartbeat)
    (hloops : m'.loops = m.loops.modify k fun h => { h with loop := l })
    (hloop : x.loop.GoesOn ∧ l.GoesOn ∨ ¬ l.GoesOn ∧ (¬ x.loop.GoesOn ∨ x.stopEvent = true)) :
    HeartbeatInv (.beat k :: tr) m' := by
  refine ⟨?_, ?_, ?_⟩
  · intro j y hy
    rw [hloops, List.getElem?_modify] at hy
    obtain ⟨y₀, hy₀, rfl⟩ := Option.map_eq_some_iff.mp hy
    have hs := h.sound j y₀ hy₀
    split
    · rename_i hkj
      rw [← hkj, hk] at hy₀
      obtain rfl := Option.some.inj hy₀
      -- a loop goes on, or ends because it is told to
      rcases hloop with ⟨hx, hl⟩ | ⟨hl, hx⟩
      · exact ⟨fun hlost => absurd hx (hs.lost hlost), fun hn => absurd hl hn⟩
      · exact ⟨fun _ => hl, fun _ => hx.elim hs.ended Or.inr⟩
    · exact hs
  · intro api j hj
    rw [hbeat] at hj
    obtain ⟨y, hy, hyapi, hspent⟩ := h.owned api j hj
    rw [hloops, List.getElem?_modify, hy]
    refine ⟨_, rfl, ?_⟩
    split
    · exact ⟨hyapi, hspent⟩
    · exact ⟨hyapi, hspent⟩
  · rw [hbeat]
    exact h.clear

/-- A loop declares the loss: the field is spent if it was its own. -/
theorem HeartbeatInv.declared {tr : List (Event ι C)} {m m' : Machine ι C} {k : ℕ}
    {x : Heartbeat ι} {l : Loop} (h : HeartbeatInv tr m) (hk : m.loops[k]? = some x)
    (hbeat : m'.inst.heartbeat = m.inst.heartbeat)
    (hloops : m'.loops = m.loops.modify k fun h => { h with lockLost := true, loop := l })
    (hloop : ¬ l.GoesOn) : HeartbeatInv (m.lostEvent k x :: tr) m' := by
  refine ⟨?_, ?_, ?_⟩
  · intro j y hy
    rw [hloops, List.getElem?_modify] at hy
    obtain ⟨y₀, hy₀, rfl⟩ := Option.map_eq_some_iff.mp hy
    split
    · exact ⟨fun _ => hloop, fun _ => Or.inl rfl⟩
    · exact h.sound j y₀ hy₀
  · intro api j hj
    rw [hbeat] at hj
    obtain ⟨y, hy, hyapi, hspent⟩ := h.owned api j hj
    rw [hloops, List.getElem?_modify, hy]
    refine ⟨_, rfl, ?_⟩
    -- the loss spends the field only if its loop is the one in it
    by_cases hkj : k = j
    · subst hkj
      rw [hk] at hy
      obtain rfl := Option.some.inj hy
      simp [spent, Machine.lostEvent, hyapi, hj]
    · have hother : ¬ (x.api = api ∧ m.inst.heartbeat x.api = some k) := by
        rintro ⟨rfl, howned⟩
        rw [howned] at hj
        exact hkj (Option.some.inj hj)
      have hevent : spent api (m.lostEvent k x :: tr) = spent api tr := by
        simp only [spent, Machine.lostEvent, ← Bool.decide_and, hother, decide_false,
          Bool.false_or]
      simpa [hevent, hkj, hyapi] using hspent
  · intro api hn
    rw [hbeat] at hn
    have hother : ¬ (x.api = api ∧ m.inst.heartbeat x.api = some k) := by
      rintro ⟨rfl, howned⟩
      rw [howned] at hn
      cases hn
    simp only [spent, Machine.lostEvent, ← Bool.decide_and, hother, decide_false, Bool.false_or]
    exact h.clear api hn

/-- The heartbeat in the field runs just while the field is not spent. -/
theorem HeartbeatInv.running_iff {tr : List (Event ι C)} {m : Machine ι C} {api : Api} {k : ℕ}
    (h : HeartbeatInv tr m) (hk : m.inst.heartbeat api = some k) :
    HeartbeatRunning m api ↔ spent api tr = false := by
  obtain ⟨x, hx, -, hspent⟩ := h.owned api k hk
  have hrunning := (h.sound k x hx).running_iff
  rw [← hspent, Bool.not_eq_true] at hrunning
  constructor
  · rintro ⟨k', x', hk', hx', hrun⟩
    rw [hk] at hk'
    obtain rfl := Option.some.inj hk'
    rw [hx] at hx'
    obtain rfl := Option.some.inj hx'
    exact hrunning.mp hrun
  · intro hfresh
    exact ⟨k, x, hk, hx, hrunning.mpr hfresh⟩

/-! ## Every step is a move -/

/-- Registering the slot starts no heartbeat. -/
theorem heartbeat_register (s : Instance ι) (registered : Bool) :
    (s.register registered).heartbeat = s.heartbeat := by
  cases registered <;> rfl

/-- A granted acquire has its heartbeat from `_start_heartbeat` alone. -/
theorem heartbeat_finalizeAcquire (s : Instance ι) (fencingToken : Option ℕ)
    (expiresAt : Option ℤ) (registered : Bool) (mode : Api) :
    (s.finalizeAcquire fencingToken expiresAt registered mode).heartbeat = s.heartbeat := by
  cases registered <;> rfl

/-- The callback leaves the field as it is. -/
theorem heartbeat_onLost (s : Instance ι) (api : Api) :
    (s.onLost api).heartbeat = s.heartbeat := by
  rw [Instance.onLost]
  split <;> rfl

/-- So does a listener. -/
theorem heartbeat_listen (s : Instance ι) : s.listen.heartbeat = s.heartbeat := by
  rw [Instance.listen]
  split <;> rfl

section Runs

variable [DecidableEq C]

/-- `_start_heartbeat` starts a loop where there is none and otherwise does nothing. -/
theorem move_startHeartbeat {m m₁ m' : Machine ι C} (c : C) {api : Api} (blocking : Bool)
    (p : Phase) (hbeat : m₁.inst.heartbeat = m.inst.heartbeat) (hloops : m₁.loops = m.loops)
    (h : m₁.startHeartbeat api = some m') :
    Move m (.leave c (.acquire api blocking) (.returned true)) (m'.setCall c p) ∧
      ∃ k, m'.inst.heartbeat api = some k := by
  rw [Machine.startHeartbeat] at h
  split at h
  · rename_i k hk
    obtain rfl := Option.some.inj h
    exact ⟨.kept (fun _ _ => rfl) hbeat hloops, k, hk⟩
  · rename_i hnone
    split at h
    · cases h
    · rename_i identifier _
      obtain rfl := Option.some.inj h
      refine ⟨.started (h := ⟨api, identifier, false, false, .sleeping⟩) (hbeat ▸ hnone) ?_ ?_
        ⟨rfl, rfl, rfl, Or.inl rfl⟩, _, Function.update_self ..⟩
      · simp only [Machine.setCall, hbeat, hloops]
      · simp only [Machine.setCall, hloops]

/-- Each step is one of the moves. -/
theorem Step.move {m m' : Machine ι C} {e : Event ι C} (h : Step cfg m e m') : Move m e m' := by
  cases h with
  | acquireReturns m₁ c blocking hcall hbeat =>
    exact (move_startHeartbeat c blocking .idle rfl rfl hbeat).1
  | aacquireReturns m₁ c blocking registered fencingToken expiresAt hcall hbeat =>
    refine (move_startHeartbeat c blocking .idle ?_ ?_ hbeat).1
    · exact heartbeat_finalizeAcquire ..
    · rfl
  | releaseHalt c api k hcall hcheck hbeat => exact .halted hbeat rfl rfl
  | refreshHalt c api k hcall hbeat => exact .halted hbeat rfl rfl
  | releaseSend c api k hcall hstop => exact .dropped rfl rfl
  | refreshStopped c api k hcall hstop => exact .dropped rfl rfl
  | wake k h hk hloop hstop hheld =>
    exact .progressed hk rfl rfl (Or.inl ⟨Or.inl hloop, Or.inr rfl⟩)
  | renewed k h expiresAt hk hanswer hreply =>
    exact .progressed hk rfl rfl (Or.inl ⟨Or.inr hanswer.1, Or.inl rfl⟩)
  | tolerated k h hk hanswer =>
    exact .progressed hk rfl rfl (Or.inl ⟨Or.inr hanswer.1, Or.inl rfl⟩)
  | callbackDone k h raised hk hloop =>
    refine .progressed hk rfl rfl (Or.inr ⟨by simp [Loop.GoesOn], Or.inl ?_⟩)
    simp [Loop.GoesOn, hloop]
  | exited k h hk hexit =>
    exact .progressed hk rfl rfl (Or.inr ⟨by simp [Loop.GoesOn], Or.inr hexit.1⟩)
  -- a loop that finds the slot given up elsewhere declares the loss as one that is told so
  | unheld k h hk hloop hstop hheld =>
    refine .declared hk (heartbeat_onLost ..) rfl ?_
    split <;> simp [Loop.GoesOn]
  | declared k h hk hanswer =>
    refine .declared hk (heartbeat_onLost ..) rfl ?_
    split <;> simp [Loop.GoesOn]
  | listen => exact .kept (fun _ _ => rfl) (heartbeat_listen _) rfl
  | acquireWait c api registered hcall =>
    exact .kept (fun _ _ => rfl) (heartbeat_register ..) rfl
  | acquireTimeout c api registered hcall =>
    exact .kept (fun _ _ => rfl) (heartbeat_register ..) rfl
  | acquireGranted c blocking registered fencingToken expiresAt hcall =>
    exact .kept (fun _ _ => rfl) (heartbeat_finalizeAcquire ..) rfl
  | astartFailed c blocking registered fencingToken expiresAt hcall hbeat =>
    exact .kept (fun _ _ => rfl) (heartbeat_finalizeAcquire ..) rfl
  | _ => exact .kept (fun _ _ => rfl) rfl rfl

/-- An acquire that succeeds leaves some heartbeat in place. -/
theorem Step.heartbeat_of_acquired {m m' : Machine ι C} {c : C} {api : Api} {blocking : Bool}
    (h : Step cfg m (.leave c (.acquire api blocking) (.returned true)) m') :
    ∃ k, m'.inst.heartbeat api = some k := by
  cases h with
  | acquireReturns m₁ c blocking hcall hbeat =>
    exact (move_startHeartbeat (m := m) c blocking .idle rfl rfl hbeat).2
  | aacquireReturns m₁ c blocking registered fencingToken expiresAt hcall hbeat =>
    refine (move_startHeartbeat (m := m) c blocking .idle ?_ ?_ hbeat).2
    · exact heartbeat_finalizeAcquire ..
    · rfl

/-- One step keeps the invariant. -/
theorem HeartbeatInv.step {tr : List (Event ι C)} {m m' : Machine ι C} {e : Event ι C}
    (h : HeartbeatInv tr m) (hstep : Step cfg m e m') : HeartbeatInv (e :: tr) m' := by
  cases hstep.move with
  | kept hevent hbeat hloops => exact h.kept hevent hbeat hloops
  | started hnone hbeat hloops hnew => exact h.started hnone hbeat hloops hnew
  | halted howned hbeat hloops => exact h.halted howned hbeat hloops
  | dropped hbeat hloops => exact h.dropped hbeat hloops
  | progressed hk hbeat hloops hloop => exact h.progressed hk hbeat hloops hloop
  | declared hk hbeat hloops hloop => exact h.declared hk hbeat hloops hloop

/-- The invariant holds in every run. -/
theorem heartbeatInv_of_run {tr : List (Event ι C)} {m : Machine ι C}
    (h : (system cfg).Run tr m) : HeartbeatInv tr m := by
  refine Transition.System.Run.invariant (M := system cfg) (I := HeartbeatInv) ?_ ?_ h
  · rintro m rfl
    refine ⟨?_, ?_, fun _ _ => rfl⟩
    · intro k x hk
      cases hk
    · intro api k hk
      cases hk
  · intro tr m e m' _ hinv hstep
    exact hinv.step hstep

/-! ## The result -/

/-- **A granted acquire is kept alive exactly when the heartbeat in place is not a leftover.** -/
theorem heartbeat_running_iff {tr : List (Event ι C)} {m : Machine ι C} {c : C} {api : Api}
    {blocking : Bool}
    (h : (system cfg).Run (.leave c (.acquire api blocking) (.returned true) :: tr) m) :
    HeartbeatRunning m api ↔ spent api tr = false := by
  obtain ⟨m₀, -, hstep⟩ := h.of_cons
  obtain ⟨k, hk⟩ := Step.heartbeat_of_acquired hstep
  exact (heartbeatInv_of_run h).running_iff hk

end Runs

/-! ## Leftovers -/

/-- Neither strict mode nor a ban on acquiring again. -/
def lenient : Config := ⟨false, .renew⟩

/-- The heartbeat of a first grant. -/
def beating : Heartbeat ℕ := ⟨.sync, 7, false, false, .sleeping⟩

/-- After a refresh that found the slot gone, the next acquire starts a new loop. -/
theorem heartbeat_running_iff_refreshed : ∃ m : Machine ℕ Unit, (system lenient).Run
    [.leave () (.acquire .sync true) (.returned true), .proceed () (.acquire .sync true),
      .enter () (.acquire .sync true), .dropped () (.refresh .sync) (some (.returned false)),
      .halt () (.refresh .sync), .enter () (.refresh .sync),
      .leave () (.acquire .sync true) (.returned true), .proceed () (.acquire .sync true),
      .enter () (.acquire .sync true)] m ∧ HeartbeatRunning m .sync := by
  have h₀ : (system lenient).Run [] (Machine.initial : Machine ℕ Unit) := .start rfl
  have h₁ := h₀.step (Step.acquireBegin () .sync true 7 rfl rfl)
  have h₂ := h₁.step (Step.acquireGranted () true false (some 1) (some 30000) rfl)
  have h₃ := h₂.step (Step.acquireReturns _ () true rfl rfl)
  have h₄ := h₃.step (Step.refreshBegin () .sync rfl ⟨Option.some_ne_none 7, rfl⟩)
  have h₅ := h₄.step (Step.refreshHalt () .sync 0 rfl rfl)
  have h₆ := h₅.step (Step.refreshStopped () .sync 0 rfl (fun h => nomatch h))
  have h₇ := h₆.step (Step.acquireBegin () .sync true 8 rfl rfl)
  have h₈ := h₇.step (Step.acquireGranted () true false (some 2) (some 60000) rfl)
  have h₉ := h₈.step (Step.acquireReturns _ () true rfl rfl)
  exact ⟨_, h₉, (heartbeat_running_iff h₉).mpr rfl⟩

/-- **Acquired, and nobody refreshes.** The heartbeat declares the loss and its loop ends. The next
acquire is granted and returns success, but the object is still in place and no loop is started. -/
theorem reacquired_without_heartbeat : ∃ m : Machine ℕ Unit, (system lenient).Run
    [.leave () (.acquire .sync true) (.returned true), .proceed () (.acquire .sync true),
      .enter () (.acquire .sync true), .beat 0, .lost 0 .sync true (some 7), .beat 0,
      .leave () (.acquire .sync true) (.returned true), .proceed () (.acquire .sync true),
      .enter () (.acquire .sync true)] m ∧
    m.inst.state = .acquired ∧ ¬ HeartbeatRunning m .sync := by
  have h₀ : (system lenient).Run [] (Machine.initial : Machine ℕ Unit) := .start rfl
  have h₁ := h₀.step (Step.acquireBegin () .sync true 7 rfl rfl)
  have h₂ := h₁.step (Step.acquireGranted () true false (some 1) (some 30000) rfl)
  have h₃ := h₂.step (Step.acquireReturns _ () true rfl rfl)
  have h₄ := h₃.step (Step.wake 0 beating rfl rfl rfl ⟨Option.some_ne_none 7, rfl⟩)
  have h₅ := h₄.step (Step.declared 0 { beating with loop := .refreshing } rfl
    ⟨rfl, fun h => nomatch h⟩)
  have h₆ := h₅.step (Step.callbackDone 0
    { beating with lockLost := true, loop := .declaring } false rfl rfl)
  have h₇ := h₆.step (Step.acquireBegin () .sync true 8 rfl rfl)
  have h₈ := h₇.step (Step.acquireGranted () true false (some 2) (some 60000) rfl)
  have h₉ := h₈.step (Step.acquireReturns _ () true rfl rfl)
  refine ⟨_, h₉, rfl, fun hrunning => ?_⟩
  have hfresh := ((heartbeatInv_of_run h₉).running_iff (k := 0) rfl).mp hrunning
  cases hfresh

end RedisSemaphore.Client
