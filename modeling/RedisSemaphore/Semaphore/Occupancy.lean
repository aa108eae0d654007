import RedisSemaphore.Semaphore.Belief
import RedisSemaphore.Semaphore.Fencing

/-!
# The slots of one instance

One `Semaphore` in sequential use, joined to the server. A call sends a script, the script executes
at most once before the call ends, and the reply reaches the call or is lost. What the client reads
is what the script answered; a lost reply shows as a backend error or a cancellation. Other clients
and the instance's own heartbeat run their scripts between any two of these moments.

Identifiers are unique, so those the instance generates, `mine`, are never sent by another client.
-/

namespace RedisSemaphore.Occupancy

open Redis Semaphore Client Transition

variable {ι : Type*} [LinearOrder ι]

/-! ## The instance and the server -/

/-- A script that a call has sent, with its reply once it has executed. -/
structure Flight (ι : Type*) where
  call : Call ι
  reply : Option Reply

/-- The instance, the server and the script in flight of the call in progress. -/
structure State (ι : Type*) [LinearOrder ι] where
  client : Machine ι Unit
  server : Server ι
  flight : Option (Flight ι)

/-- The parameters of the instance, and the identifiers it generates. -/
structure Setting (ι : Type*) where
  cfg : Config
  limit : ℕ
  lockTimeoutMs : ℕ
  mine : ι → Prop

/-- The script the call in progress is waiting for, with the arguments it was sent. -/
def sent (p : Setting ι) (m : Machine ι Unit) : Option (Call ι) :=
  match m.calls (), m.inst.identifier with
  | .acquiring .., some identifier => some (.acquire identifier p.limit p.lockTimeoutMs)
  | .releasing _, some identifier => some (.release identifier)
  | .refreshing _, some identifier => some (.refresh identifier p.lockTimeoutMs)
  | _, _ => none

/-- The call ends because of an error or a cancellation, whatever the script answered. -/
def Lost (e : Client.Event ι Unit) : Prop :=
  ∃ op, e = .leave () op (.raised .backend) ∨ e = .leave () op (.raised .cancelled)

/-- An acquire goes on as after a grant with this token and expiry. -/
def Granted (reply : AcquireReply) (e : Client.Event ι Unit) (m' : Machine ι Unit) : Prop :=
  ((∃ blocking, m'.calls () = .finalized blocking) ∨
    ∃ blocking, e = .leave () (.acquire .async blocking) (.returned true) ∨
      e = .leave () (.acquire .async blocking) (.raised .noIdentifier)) ∧
  m'.inst.fencingToken = reply.fencingToken.filter (· ≠ 0) ∧
  m'.inst.expiresAt = reply.expiresAt.filter (· ≠ 0)

/-- An acquire goes on as after a refusal. -/
def Refused (e : Client.Event ι Unit) (m' : Machine ι Unit) : Prop :=
  (∃ api, m'.calls () = .waiting api) ∨
    ∃ api, e = .leave () (.acquire api false) (.returned false) ∨
      e = .leave () (.acquire api true) (.raised .acquireTimeout)

/-- What the call makes of the reply it has got, if it was waiting for one. -/
def Reads (reply : Option Reply) (m : Machine ι Unit) (e : Client.Event ι Unit)
    (m' : Machine ι Unit) : Prop :=
  match m.calls () with
  | .acquiring .. => Lost e ∨ ∃ r, reply = some (.acquire r) ∧
      if r.success then Granted r e m' else Refused e m'
  | .releasing api => Lost e ∨ ∃ n, reply = some (.int n) ∧
      m'.calls () = if n ≠ 0 then .notifying api else .idle
  | .refreshing api => Lost e ∨ ∃ n, reply = some (.int n) ∧
      if n ≠ 0 then
        e = .leave () (.refresh api) (.returned true) ∧ m'.inst.expiresAt = some n
      else m'.inst.state = .lost
  | _ => True

/-- A script that does not come from a call of the instance: a refresh of its heartbeat, or what
another client sends. -/
def Elsewhere (mine : ι → Prop) : Call ι → Prop
  | .acquire identifier _ _ | .release identifier => ¬ mine identifier
  | .refresh _ _ | .cleanup | .status _ => True

/-- A step of the instance, an execution of the script in flight or of another one, the clock, or
the end of the owners key. -/
inductive Event (ι : Type*)
  | client (e : Client.Event ι Unit)
  | execute
  | elsewhere (call : Call ι)
  | wait (time : ℤ)
  | expire

/-- One step. A heartbeat refreshes when it likes: nothing here depends on which refreshes its loops
have sent. -/
inductive Step (p : Setting ι) (s : State ι) : Event ι → State ι → Prop
  | call (e : Client.Event ι Unit) (m' : Machine ι Unit) (hop : e.op ≠ none)
      (hstep : Client.Step p.cfg s.client e m')
      (hreads : Reads (s.flight.bind Flight.reply) s.client e m')
      (hmine : ∀ i, m'.inst.identifier = some i → s.client.inst.identifier = some i ∨ p.mine i) :
      Step p s (.client e) { s with client := m', flight := (sent p m').map fun c => ⟨c, none⟩ }
  | background (e : Client.Event ι Unit) (m' : Machine ι Unit) (hop : e.op = none)
      (hstep : Client.Step p.cfg s.client e m') :
      Step p s (.client e) { s with client := m' }
  | execute (c : Call ι) (nowArg : Option ℤ) (hflight : s.flight = some ⟨c, none⟩) :
      Step p s .execute
        { s with
          server := { s.server with keys := (exec c nowArg s.server.time s.server.keys).2 }
          flight := some ⟨c, some (exec c nowArg s.server.time s.server.keys).1⟩ }
  | elsewhere (c : Call ι) (nowArg : Option ℤ) (hcall : Elsewhere p.mine c) :
      Step p s (.elsewhere c)
        { s with
          server := { s.server with keys := (exec c nowArg s.server.time s.server.keys).2 } }
  | wait (time : ℤ) (h : s.server.time ≤ time) :
      Step p s (.wait time) { s with server := { s.server with time := time } }
  | expire :
      Step p s .expire
        { s with server := { s.server with keys := s.server.keys.expire s.server.time } }

/-- The runs of a fresh instance, on a server that knows none of its identifiers. -/
def system (p : Setting ι) : System (State ι) (Event ι) where
  start s := s.client = .initial ∧ s.flight = none ∧
    ∀ i, p.mine i → ¬ Owns s.server.keys.owners i
  step := Step p

/-! ## What a script does to the owners -/

section Owners

variable {i : ι} {time t : ℤ} {nowArg : Option ℤ} {keys : Keys ι}

/-- A grant makes its own member an owner and nobody else. -/
theorem owns_of_bump {owners : SortedSetKey ι} {nowMs ttl : ℤ} {j : ι}
    (h : Owns (bumpOwnersTtl time nowMs ttl (owners.update fun z => z.zadd t j)) i) :
    i = j ∨ Owns owners i := by
  obtain ⟨score, hscore⟩ := h
  have hmem := mem_of_mem_bumpOwnersTtl (SortedSet.zscore_eq_some.mp hscore)
  rw [SortedSetKey.value_update, SortedSet.mem_zadd] at hmem
  rcases hmem with heq | ⟨hmem, -⟩
  · exact Or.inl (congrArg Scored.member heq)
  · exact Or.inr ⟨score, SortedSet.zscore_eq_some.mpr hmem⟩

/-- **Only an acquire makes an owner.** -/
theorem owns_exec {c : Call ι} (h : Owns (exec c nowArg time keys).2.owners i) :
    Owns keys.owners i ∨ ∃ limit timeout, c = .acquire i limit timeout := by
  -- only an acquire makes an owner; a refresh goes on only where the member is one
  cases c with
  | acquire j limit timeout =>
    simp only [exec, acquireScript] at h
    split at h
    · rcases owns_of_bump h with rfl | hown
      · exact Or.inr ⟨_, _, rfl⟩
      · exact Or.inl hown.of_evict
    · split at h
      · rcases owns_of_bump h with rfl | hown
        · exact Or.inr ⟨_, _, rfl⟩
        · exact Or.inl hown.of_evict
      · exact Or.inl (Owns.of_evict h)
  | release j =>
    simp only [exec, releaseScript] at h
    split at h
    · exact Or.inl (Owns.of_zrem h)
    · exact Or.inl h
  | refresh j timeout =>
    simp only [exec, refreshScript] at h
    split at h
    · exact Or.inl h
    · rename_i score hscore
      split at h
      · exact Or.inl (Owns.of_zrem h)
      · rcases owns_of_bump h with rfl | hown
        · exact Or.inl ⟨score, hscore⟩
        · exact Or.inl hown
  | cleanup => exact Or.inl (Owns.of_evict h)
  | status j => exact Or.inl (Owns.of_evict h)

variable (i time nowArg keys) in
/-- A release leaves the identifier without a slot. -/
theorem not_owns_exec_release : ¬ Owns (exec (.release i) nowArg time keys).2.owners i := by
  rintro ⟨score, hscore⟩
  simp only [exec, releaseScript] at hscore
  split at hscore
  · rw [SortedSetKey.value_update, SortedSet.zscore_zrem_self] at hscore
    cases hscore
  · rename_i hnone
    rw [hnone] at hscore
    cases hscore

end Owners

/-! ## What a step of the instance does to the identifier -/

section Client

variable {κ : Type*} {cfg : Config} {m m' : Machine κ Unit} {e : Client.Event κ Unit}

/-- A loop or a listener moves neither the identifier nor the call in progress. -/
theorem background_keeps (h : Client.Step cfg m e m') (hop : e.op = none) :
    m'.inst.identifier = m.inst.identifier ∧ m'.calls = m.calls := by
  cases h with
  | wake | renewed | tolerated | callbackDone | exited => exact ⟨rfl, rfl⟩
  | unheld k b => exact ⟨identifier_onLost _ _, rfl⟩
  | declared k b => exact ⟨identifier_onLost _ _, rfl⟩
  | listen => exact ⟨(state_listen _).2, rfl⟩
  | _ => cases hop

/-- The call is in its new phase. -/
@[simp] theorem calls_setCall (m : Machine κ Unit) (c : Unit) (phase : Phase) :
    (m.setCall c phase).calls () = phase := by
  rw [Machine.setCall]
  exact Function.update_self () phase m.calls

/-- The identifier is kept, made where there is none, or cleared by the reply of a release. -/
theorem identifier_step (h : Client.Step cfg m e m') :
    m'.inst.identifier = m.inst.identifier ∨ m.inst.identifier = none ∨
      m'.inst.identifier = none ∧ (∃ api, m.calls () = .releasing api) ∧ ¬ Lost e := by
  cases h with
  | acquireBegin c api blocking new =>
    cases hid : m.inst.identifier with
    | none => exact Or.inr (Or.inl rfl)
    | some i => exact Or.inl (by simp [Machine.setCall, Instance.ensureIdentifier, hid])
  | acquireWait | acquireTimeout => exact Or.inl (state_register ..).2
  | acquireGranted | astartFailed => exact Or.inl (identifier_finalizeAcquire ..).2
  | acquireReturns m₁ c blocking hcall hbeat => exact Or.inl (state_startHeartbeat hbeat).2.1
  | aacquireReturns m₁ c blocking registered fencingToken expiresAt hcall hbeat =>
    exact Or.inl ((state_startHeartbeat hbeat).2.1.trans (identifier_finalizeAcquire ..).2)
  | releaseUnheld c api hcall =>
    refine Or.inr (Or.inr ⟨rfl, ⟨api, hcall⟩, ?_⟩)
    rintro ⟨op, hraised | hraised⟩ <;> cases hraised
  | released c api hcall =>
    refine Or.inr (Or.inr ⟨rfl, ⟨api, hcall⟩, ?_⟩)
    rintro ⟨op, hraised | hraised⟩ <;> cases hraised
  | unheld | declared => exact Or.inl (identifier_onLost _ _)
  | listen => exact Or.inl (state_listen _).2
  | _ => exact Or.inl rfl

/-- A call notifies the waiters only after it has cleared the identifier. -/
theorem notifying_step (h : Client.Step cfg m e m') (hop : e.op ≠ none) {api : Api}
    (hcall : m'.calls () = .notifying api) : m'.inst.identifier = none := by
  cases h with
  | released => rfl
  | acquireRefused c _ _ _ hidle | releaseRefused c _ _ hidle | refreshUnheld c _ hidle =>
    rw [show m.calls () = .idle from hidle] at hcall
    cases hcall
  | wake | renewed | tolerated | callbackDone | exited | unheld | declared | listen =>
    exact absurd rfl hop
  | _ => simp at hcall

/-- A release that returns has cleared the identifier. -/
theorem returned_step {api : Api} {value : Bool}
    (h : Client.Step cfg m (.leave () (.release api) (.returned value)) m')
    (hnotified : ∀ api, m.calls () = .notifying api → m.inst.identifier = none) :
    m'.inst.identifier = none := by
  cases h with
  | releaseUnheld => rfl
  | notified c api hcall => exact hnotified api hcall

/-! ## What the call waits for -/

variable {p : Setting κ}

/-- What may be under way depends on the identifier and the phase. -/
theorem sent_congr {m m' : Machine κ Unit} (hidentifier : m'.inst.identifier = m.inst.identifier)
    (hcalls : m'.calls = m.calls) : sent p m' = sent p m := by
  rw [sent, sent, hidentifier, hcalls]

/-- An acquire in flight carries the identifier of the instance. -/
theorem identifier_of_sent_acquire {m : Machine κ Unit} {i : κ} {limit timeout : ℕ}
    (h : sent p m = some (.acquire i limit timeout)) : m.inst.identifier = some i := by
  rw [sent] at h
  split at h <;> simp_all

/-- While a release is awaited, what is in flight is the release of the instance's identifier. -/
theorem sent_releasing {m : Machine κ Unit} {c : Call κ} {api : Api} (h : sent p m = some c)
    (hcall : m.calls () = .releasing api) :
    ∃ i, m.inst.identifier = some i ∧ c = .release i := by
  rw [sent, hcall] at h
  split at h <;> simp_all

/-- A reply that is read has been answered. -/
theorem answered_of_reads {m m' : Machine κ Unit} {e : Client.Event κ Unit} {reply : Option Reply}
    {api : Api} (h : Reads reply m e m') (hcall : m.calls () = .releasing api) (hlost : ¬ Lost e) :
    ∃ r, reply = some r := by
  rw [Reads, hcall] at h
  obtain ⟨n, hreply, -⟩ := h.resolve_left hlost
  exact ⟨_, hreply⟩

end Client

/-! ## The invariant -/

/-- What joins the identifier of the instance to the owners on the server. -/
structure Inv (p : Setting ι) (s : State ι) : Prop where
  /-- Only the identifier the instance holds can have a slot. -/
  held : ∀ i, p.mine i → Owns s.server.keys.owners i → s.client.inst.identifier = some i
  /-- The script in flight is the one the call is waiting for. -/
  awaited : ∀ f, s.flight = some f → sent p s.client = some f.call
  /-- A release that has executed leaves no slot behind. -/
  freed : ∀ i r, s.flight = some ⟨.release i, some r⟩ → p.mine i →
    ¬ Owns s.server.keys.owners i
  /-- The identifier is gone before the waiters are notified. -/
  notified : ∀ api, s.client.calls () = .notifying api → s.client.inst.identifier = none

section Step

variable {p : Setting ι} {s : State ι}

/-- A script from elsewhere makes none of the instance's identifiers an owner. -/
theorem owns_of_elsewhere {c : Call ι} {nowArg : Option ℤ} {time : ℤ} {keys : Keys ι} {i : ι}
    (hcall : Elsewhere p.mine c) (hmine : p.mine i)
    (hown : Owns (exec c nowArg time keys).2.owners i) : Owns keys.owners i := by
  rcases owns_exec hown with hold | ⟨limit, timeout, rfl⟩
  · exact hold
  · exact absurd hmine hcall

/-- A segment of a call. -/
theorem Inv.call (h : Inv p s) {e : Client.Event ι Unit} {m' : Machine ι Unit} (hop : e.op ≠ none)
    (hstep : Client.Step p.cfg s.client e m')
    (hreads : Reads (s.flight.bind Flight.reply) s.client e m') :
    Inv p { s with client := m', flight := (sent p m').map fun c => ⟨c, none⟩ } where
  held i hmine hown := by
    have hid := h.held i hmine hown
    rcases identifier_step hstep with hkept | hnone | ⟨-, ⟨api, hcall⟩, hlost⟩
    · exact hkept.trans hid
    · rw [hnone] at hid
      cases hid
    · -- the release this step reads has executed, so the identifier has no slot
      exfalso
      obtain ⟨r, hr⟩ := answered_of_reads hreads hcall hlost
      obtain ⟨⟨c, reply⟩, hflight, rfl⟩ := Option.bind_eq_some_iff.mp hr
      obtain ⟨j, hj, rfl⟩ := sent_releasing (h.awaited _ hflight) hcall
      rw [hj] at hid
      obtain rfl := Option.some.inj hid
      exact h.freed j r hflight hmine hown
  awaited f hf := by
    obtain ⟨c, hc, rfl⟩ := Option.map_eq_some_iff.mp hf
    exact hc
  freed i r hf := by
    obtain ⟨c, -, heq⟩ := Option.map_eq_some_iff.mp hf
    cases heq
  notified api hcall := notifying_step hstep hop hcall

/-- **Every step keeps the invariant.** -/
theorem Inv.step {e : Event ι} {s' : State ι} (h : Inv p s) (hs : Step p s e s') : Inv p s' := by
  cases hs with
  | call e m' hop hstep hreads hmine => exact h.call hop hstep hreads
  | background e m' hop hstep =>
    obtain ⟨hidentifier, hcalls⟩ := background_keeps hstep hop
    refine ⟨?_, ?_, h.freed, ?_⟩
    · intro i hmine hown
      exact hidentifier.trans (h.held i hmine hown)
    · intro f hf
      exact (sent_congr hidentifier hcalls).trans (h.awaited f hf)
    · intro api hcall
      exact hidentifier.trans (h.notified api (by rwa [← hcalls]))
  -- what executes was sent under the identifier the instance still has
  | execute c nowArg hflight =>
    have hsent := h.awaited _ hflight
    refine ⟨?_, ?_, ?_, h.notified⟩
    · intro i hmine hown
      rcases owns_exec hown with hold | ⟨limit, timeout, rfl⟩
      · exact h.held i hmine hold
      · exact identifier_of_sent_acquire hsent
    · intro f hf
      obtain rfl := Option.some.inj hf
      exact hsent
    · intro i r hf _
      have hc : c = .release i := congrArg Flight.call (Option.some.inj hf)
      subst hc
      exact not_owns_exec_release i s.server.time nowArg s.server.keys
  -- other instances use identifiers of their own
  | elsewhere c nowArg hcall =>
    refine ⟨?_, h.awaited, ?_, h.notified⟩
    · intro i hmine hown
      exact h.held i hmine (owns_of_elsewhere hcall hmine hown)
    · intro i r hf hmine hown
      exact h.freed i r hf hmine (owns_of_elsewhere hcall hmine hown)
  | wait time htime => exact ⟨h.held, h.awaited, h.freed, h.notified⟩
  | expire =>
    refine ⟨?_, h.awaited, ?_, h.notified⟩
    · intro i hmine hown
      exact h.held i hmine hown.of_expire
    · intro i r hf hmine hown
      exact h.freed i r hf hmine hown.of_expire

end Step

/-- The invariant holds in every reachable state. -/
theorem inv_of_run {p : Setting ι} {tr : List (Event ι)} {s : State ι}
    (h : (system p).Run tr s) : Inv p s := by
  refine System.Run.invariant (I := fun _ s => Inv p s) ?_ ?_ h
  · rintro s ⟨hclient, hflight, hforeign⟩
    refine ⟨?_, ?_, ?_, ?_⟩
    · intro i hmine hown
      exact absurd hown (hforeign i hmine)
    · intro f hf
      rw [hflight] at hf
      cases hf
    · intro i r hf
      rw [hflight] at hf
      cases hf
    · intro api _
      rw [hclient]
      rfl
  · intro tr s e s' _ ih hs
    exact ih.step hs

/-- **An instance never occupies two slots.** In every reachable state at most one identifier the
instance has generated is an owner, and right after a release that returned there is none. -/
theorem one_slot {p : Setting ι} {tr : List (Event ι)} {s : State ι} (h : (system p).Run tr s) :
    (∀ i j, p.mine i → p.mine j → Owns s.server.keys.owners i → Owns s.server.keys.owners j →
      i = j) ∧
    ∀ api value tr', tr = .client (.leave () (.release api) (.returned value)) :: tr' →
      ∀ i, p.mine i → ¬ Owns s.server.keys.owners i := by
  have hinv := inv_of_run h
  constructor
  · intro i j hi hj howni hownj
    have hboth := (hinv.held i hi howni).symm.trans (hinv.held j hj hownj)
    exact Option.some.inj hboth
  · rintro api value tr' rfl i hi hown
    obtain ⟨s₀, hrun, hstep⟩ := h.of_cons
    have hnotified := (inv_of_run hrun).notified
    have hid := hinv.held i hi hown
    have hnone : s.client.inst.identifier = none := by
      cases hstep with
      | call _ m' hop hclient => exact returned_step hclient hnotified
      | background _ m' hop => cases hop
    rw [hnone] at hid
    cases hid

/-- One slot of ten milliseconds, and an instance that generates the identifier `7`. -/
def setting : Setting ℕ := ⟨⟨true, .renew⟩, 1, 10, fun i => i = 7⟩

/-- The reply of an acquire that took the slot is lost; the release that follows frees the slot. -/
theorem one_slot_lost_reply : ∃ (tr : List (Event ℕ)) (s₁ s₂ : State ℕ),
    (system setting).Run tr s₁ ∧ Owns s₁.server.keys.owners 7 ∧
    (system setting).Run
      (.client (.leave () (.release .sync) (.returned true)) ::
        .client (.proceed () (.release .sync)) :: .execute ::
        .client (.enter () (.release .sync)) :: tr) s₂ ∧
    ∀ i, i = 7 → ¬ Owns s₂.server.keys.owners i := by
  have h₀ : (system setting).Run [] ⟨.initial, ⟨1, .initial⟩, none⟩ :=
    .start ⟨rfl, rfl, by rintro i - ⟨score, hscore⟩; cases hscore⟩
  have h₁ := h₀.step (.call _ _ (by simp [Event.op]) (.acquireBegin () .sync false 7 rfl rfl)
    trivial (fun _ h => Or.inr (Option.some.inj h).symm))
  have h₂ := h₁.step (.execute _ none rfl)
  have h₃ := h₂.step (.call _ _ (by simp [Event.op])
    (.acquireFailed () .sync false false .backend rfl (Or.inl rfl))
    (Or.inl ⟨_, Or.inl rfl⟩) (fun _ h => Or.inl h))
  have h₄ := h₃.step (.call _ _ (by simp [Event.op]) (.releaseBegin () .sync rfl rfl rfl)
    trivial (fun _ h => Or.inl h))
  have h₅ := h₄.step (.execute _ none rfl)
  have h₆ := h₅.step (.call _ _ (by simp [Event.op]) (.released () .sync rfl)
    (Or.inr ⟨1, rfl, rfl⟩) (fun _ h => by cases h))
  have h₇ := h₆.step (.call _ _ (by simp [Event.op]) (.notified () .sync rfl)
    trivial (fun _ h => by cases h))
  exact ⟨_, _, _, h₃, ⟨_, rfl⟩, h₇, (one_slot h₇).2 .sync true _ rfl⟩

end RedisSemaphore.Occupancy
