import RedisSemaphore.Semaphore.Scripts

/-!
# The time to live of the owners key

With `TimeSource.CLIENT` a script reasons with the clock of the client that sent it, while Redis
counts the expiry of a key on its own clock. `_LUA_BUMP_OWNERS_TTL` adds one `lock_timeout` of
margin to the time to live it computes from one client's clock, and later calls of other clients
rely on it.
-/

namespace RedisSemaphore.Semaphore

open Redis Transition

variable {ι : Type*} [LinearOrder ι] {κ : Type*} {offset : κ → ℤ}

/-! ## Runs with the clients' clocks -/

/-- The `lock_timeout_ms` a script is called with. -/
def Call.lockTimeoutMs : Call ι → Option ℕ
  | .acquire _ _ lockTimeoutMs => some lockTimeoutMs
  | .release _ => none
  | .refresh _ lockTimeoutMs => some lockTimeoutMs
  | .cleanup => none
  | .status _ => none

/-- A script called by a client, the server clock and the expiry of the owners key. -/
inductive ClientEvent (κ ι : Type*)
  | call (client : κ) (call : Call ι) (reply : Reply)
  | wait (time : ℤ)
  | expire

/-- One step with `TimeSource.CLIENT`: the clock of a client is `offset` ahead of the server's. A
client reads its clock when it sends a script, which the server may execute later. -/
inductive ClientStep (offset : κ → ℤ) : Server ι → ClientEvent κ ι → Server ι → Prop
  | call (s : Server ι) (client : κ) (c : Call ι) (sent : ℤ) (hsent : sent ≤ s.time) :
      ClientStep offset s (.call client c (exec c (some (sent + offset client)) s.time s.keys).1)
        { s with keys := (exec c (some (sent + offset client)) s.time s.keys).2 }
  | wait (s : Server ι) (time : ℤ) (h : s.time ≤ time) :
      ClientStep offset s (.wait time) { s with time := time }
  | expire (s : Server ι) : ClientStep offset s .expire { s with keys := s.keys.expire s.time }

/-- The runs of one semaphore whose clients pass their own time. -/
def clientSystem (offset : κ → ℤ) : System (Server ι) (ClientEvent κ ι) where
  start s := s.keys = Keys.initial
  step := ClientStep offset

/-- No two offsets differ by more than the lock timeout of the call. -/
def Spread (offset : κ → ℤ) : ClientEvent κ ι → Prop
  | .call _ c _ =>
    ∀ lockTimeoutMs, c.lockTimeoutMs = some lockTimeoutMs →
      ∀ k k', offset k - offset k' ≤ lockTimeoutMs
  | .wait _ => True
  | .expire => True

/-! ## The margin -/

/-- A key that exists has a deadline, and no client sees a member alive when it passes. -/
def Outlives (offset : κ → ℤ) (owners : SortedSetKey ι) : Prop :=
  owners.value.entries ≠ [] → ∃ d, owners.deadline = some d ∧
    ∀ e ∈ owners.value.entries, ∀ k, e.score ≤ d + offset k

section Margin

variable {owners : SortedSetKey ι} {time nowMs : ℤ} {lockTimeoutMs : ℕ} {client : κ}

theorem outlives_empty : Outlives offset (∅ : SortedSetKey ι) := fun hne => absurd rfl hne

/-- A command that only removes members leaves the deadline to the rest. -/
theorem Outlives.update {f : SortedSet ι → SortedSet ι} (h : Outlives offset owners)
    (hf : ∀ e ∈ (f owners.value).entries, e ∈ owners.value.entries) :
    Outlives offset (owners.update f) := by
  intro hne
  rw [SortedSetKey.value_update] at hne
  obtain ⟨e, he⟩ := List.exists_mem_of_ne_nil _ hne
  obtain ⟨d, hd, hcover⟩ := h (List.ne_nil_of_mem (hf e he))
  refine ⟨d, ?_, fun e' he' => hcover e' (hf e' he')⟩
  rw [← hd]
  exact SortedSetKey.deadline_store_of_mem he owners.deadline

theorem Outlives.evictExpired (h : Outlives offset owners) (nowMs : ℤ) :
    Outlives offset (evictExpired nowMs owners) := by
  apply h.update
  intro e he
  exact (SortedSet.mem_zremRangeByScore.mp he).1

theorem Outlives.zrem (h : Outlives offset owners) (i : ι) :
    Outlives offset (owners.update fun z => z.zrem i) := by
  apply h.update
  intro e he
  exact (SortedSet.mem_zrem.mp he).1

/-- `PEXPIRE` with a deadline that covers the members. -/
theorem outlives_pexpire {ttl : ℤ}
    (hcover : ∀ e ∈ owners.value.entries, ∀ k, e.score ≤ time + ttl + offset k) :
    Outlives offset (owners.pexpire time ttl) := by
  unfold SortedSetKey.pexpire
  by_cases hpositive : ttl ≤ 0
  · rw [if_pos hpositive]
    exact outlives_empty
  · rw [if_neg hpositive]
    intro hne
    obtain ⟨e, he⟩ := List.exists_mem_of_ne_nil _ hne
    exact ⟨_, SortedSetKey.deadline_store_of_mem he _, hcover⟩

/-- **One lock timeout of margin suffices.** The bump covers every member on every clock, whatever
deadline the key had. -/
theorem outlives_bumpOwnersTtl (hmem : owners.value.entries ≠ [])
    (hnow : nowMs ≤ time + offset client)
    (hspread : ∀ k k', offset k - offset k' ≤ lockTimeoutMs) :
    Outlives offset (bumpOwnersTtl time nowMs lockTimeoutMs owners) := by
  obtain ⟨e, he⟩ := List.exists_mem_of_ne_nil _ hmem
  obtain ⟨top, htop⟩ := SortedSet.exists_last he
  rw [bumpOwnersTtl, htop]
  apply outlives_pexpire
  intro e' he' k
  have hle := SortedSet.score_le_last htop he'
  have hclocks := hspread client k
  omega

/-- A grant writes a member and bumps the time to live. -/
theorem outlives_grant (i : ι) (score : ℤ) (hnow : nowMs ≤ time + offset client)
    (hspread : ∀ k k', offset k - offset k' ≤ lockTimeoutMs) :
    Outlives offset (bumpOwnersTtl time nowMs lockTimeoutMs
      (owners.update fun z => z.zadd score i)) := by
  apply outlives_bumpOwnersTtl _ hnow hspread
  rw [SortedSetKey.value_update]
  exact List.ne_nil_of_mem (SortedSet.mem_zadd.mpr (Or.inl rfl))

theorem Outlives.expire (h : Outlives offset owners) (time : ℤ) :
    Outlives offset (owners.expire time) := by
  rcases SortedSetKey.expire_cases time owners with heq | ⟨heq, -⟩
  · rw [heq]
    exact h
  · rw [heq]
    exact outlives_empty

/-- Every script keeps the margin. -/
theorem Outlives.exec {keys : Keys ι} {nowArg : Option ℤ} (h : Outlives offset keys.owners)
    (c : Call ι) (hnow : resolveNow nowArg time ≤ time + offset client)
    (hspread : ∀ lockTimeoutMs, c.lockTimeoutMs = some lockTimeoutMs →
      ∀ k k', offset k - offset k' ≤ lockTimeoutMs) :
    Outlives offset (exec c nowArg time keys).2.owners := by
  cases c with
  | acquire i limit lockTimeoutMs =>
    have hgrant := hspread lockTimeoutMs rfl
    simp only [Semaphore.exec, acquireScript]
    split
    · exact outlives_grant i _ hnow hgrant
    · split
      · exact outlives_grant i _ hnow hgrant
      · exact h.evictExpired _
  | release i =>
    simp only [Semaphore.exec, releaseScript]
    split
    · exact h.zrem i
    · exact h
  | refresh i lockTimeoutMs =>
    have hgrant := hspread lockTimeoutMs rfl
    simp only [Semaphore.exec, refreshScript]
    split
    · exact h
    · split
      · exact h.zrem i
      · exact outlives_grant i _ hnow hgrant
  | cleanup => exact h.evictExpired _
  | status i => exact h.evictExpired _

end Margin

/-- **The owners key outlives its owners.** In every run of clients whose clocks differ by no more
than any lock timeout in use, the owners key has a deadline whenever it exists, and the deadline is
still to come as long as some client sees some member alive. -/
theorem owners_deadline {tr : List (ClientEvent κ ι)} {s : Server ι}
    (h : ((clientSystem offset).restrict fun _ => Spread offset).Run tr s)
    (hexists : s.keys.owners.value.entries ≠ []) :
    ∃ d, s.keys.owners.deadline = some d ∧
      ∀ e ∈ s.keys.owners.value.entries, ∀ k, s.time + offset k < e.score → s.time < d := by
  have houtlives : Outlives offset s.keys.owners := by
    refine System.Run.invariant (I := fun _ s => Outlives offset s.keys.owners) ?_ ?_ h
    · intro s hstart
      rw [show s.keys = Keys.initial from hstart]
      exact outlives_empty
    · intro tr s e s' _ hs hstep
      obtain ⟨hspread, hmove⟩ := hstep
      cases hmove with
      | call client c sent hsent => exact hs.exec c (Int.add_le_add_right hsent _) hspread
      | wait time hle => exact hs
      | expire => exact hs.expire s.time
  obtain ⟨d, hd, hcover⟩ := houtlives hexists
  refine ⟨d, hd, fun e he k hlive => ?_⟩
  have hle := hcover e he k
  omega

/-- A client 20 s ahead of the server and one 10 s behind it. -/
def askew : Bool → ℤ
  | true => 20000
  | false => -10000

/-- The first takes a slot for 30 s at the server's minute. -/
theorem owners_deadline_askew :
    let owners := (exec (.acquire (7 : ℕ) 1 30000) (some (60000 + askew true)) 60000
      Keys.initial).2.owners
    ∃ d, owners.deadline = some d ∧
      ∀ e ∈ owners.value.entries, ∀ k, 60000 + askew k < e.score → 60000 < d := by
  have h₀ : ((clientSystem askew).restrict fun _ => Spread askew).Run []
    (⟨60000, Keys.initial⟩ : Server ℕ) := .start rfl
  have h₁ := h₀.step ⟨by
      intro lockTimeoutMs htimeout k k'
      obtain rfl := Option.some.inj htimeout
      cases k <;> cases k' <;> simp [askew],
    ClientStep.call _ true (.acquire 7 1 30000) 60000 le_rfl⟩
  exact owners_deadline h₁ (by decide)

end RedisSemaphore.Semaphore
