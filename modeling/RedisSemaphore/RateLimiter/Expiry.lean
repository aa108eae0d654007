import RedisSemaphore.RateLimiter.Limits

/-!
# Keys outlive the window of their entries

Every write gives a log the deadline of two windows from now, so a log that expires holds only
entries that have left the window: `Timely`. It needs that no entry is scored in the future, which
the scripts guarantee as long as an adjust names a past admission time.
-/

namespace RedisSemaphore.RateLimiter

open Redis Transition

variable {κ ι : Type*} [LinearOrder (Member ι)]

/-- No entry is scored in the future, and the deadline of the log is past the window of each. -/
structure Timely (l : Limit κ) (time : ℤ) (keys : LimitKeys ι) : Prop where
  past : ∀ e ∈ keys.log.value.entries, e.score ≤ time
  covered : ∀ d, keys.log.deadline = some d →
    ∀ e ∈ keys.log.value.entries, e.score + l.windowMs ≤ d

/-- An adjust names an admission time that has passed. -/
def PastAdjust : Event κ ι → Prop
  | .call t (.adjust _ acquiredAt _) _ => acquiredAt ≤ t
  | _ => True

section Timely

variable {l : Limit κ} {time : ℤ} {keys : LimitKeys ι}

theorem timely_initial : Timely l time (LimitKeys.initial : LimitKeys ι) where
  past := fun e he => by cases he
  covered := fun d hd => by cases hd

theorem Timely.mono (h : Timely l time keys) {time' : ℤ} (hle : time ≤ time') :
    Timely l time' keys where
  past := fun e he => (h.past e he).trans hle
  covered := h.covered

/-- A script scores new entries with the current time or the admission time it is given. -/
theorem Timely.onLimit (h : Timely l time keys) (call : Call κ ι) (admitted : Bool) {r : Reply}
    (hpast : PastAdjust (.call time call r)) :
    Timely l time (call.onLimit admitted time l keys).2 := by
  have hscore : ∀ e ∈ (call.onLimit admitted time l keys).2.log.value.entries, e.score ≤ time := by
    intro e he
    cases call with
    | acquire identifier cost =>
      cases admitted with
      | false => exact h.past e (mem_log_evict.mp he).1
      | true =>
        rcases (mem_log_recordLimit _ _ _ _ ⟨l.name, l.limit, l.windowMs, cost l.name⟩ _
          l.window_pos).mp he with he | ⟨-, -, rfl⟩
        · exact h.past e (mem_log_evict.mp he).1
        · exact le_rfl
    | adjust identifier acquiredAt change =>
      rcases (mem_log_adjustLimit _ _ _ _ ⟨l.name, l.windowMs, _, _⟩ _ l.window_pos).mp he with
        ⟨-, -, rfl⟩ | ⟨-, -, he, -⟩
      · exact hpast
      · exact h.past e he
    | status => exact h.past e (mem_log_evict.mp he).1
  refine ⟨hscore, fun d hd e he => ?_⟩
  rcases deadline_onLimit hd with rfl | ⟨hd, hsub⟩
  · have := hscore e he
    omega
  · exact h.covered d hd e (hsub e he)

/-- A key dropped at its deadline, or lost, leaves nothing to be late for. -/
theorem Timely.expire (h : Timely l time keys) (kind : KeyKind) :
    Timely l time (keys.expire kind time) := by
  cases kind with
  | total => exact ⟨h.past, h.covered⟩
  | log =>
    rcases SortedSetKey.expire_cases time keys.log with heq | ⟨heq, -⟩
    · exact ⟨fun e he => h.past e (by simpa [LimitKeys.expire, heq] using he),
        fun d hd e he => h.covered d (by simpa [LimitKeys.expire, heq] using hd) e
          (by simpa [LimitKeys.expire, heq] using he)⟩
    · exact ⟨fun e he => by simp [LimitKeys.expire, heq] at he,
        fun d hd => by simp [LimitKeys.expire, heq] at hd⟩

theorem Timely.delete (h : Timely l time keys) (kind : KeyKind) :
    Timely l time (keys.delete kind) := by
  cases kind with
  | total => exact ⟨h.past, h.covered⟩
  | log => exact ⟨fun e he => (by cases he), fun d hd => (by cases hd)⟩

/-- **Expiry spares the window**: an entry inside the window survives the expiry of its key. -/
theorem Timely.mem_expire (h : Timely l time keys) (kind : KeyKind) {e : Scored (Member ι)}
    (he : e ∈ keys.log.value.entries) (hwin : time - l.windowMs < e.score) :
    e ∈ (keys.expire kind time).log.value.entries := by
  cases kind with
  | total => exact he
  | log =>
    rcases SortedSetKey.expire_cases time keys.log with heq | ⟨-, d, hd, hle⟩
    · simpa [LimitKeys.expire, heq] using he
    · have := h.covered d hd e he
      omega

/-- What expiry leaves was there. -/
theorem mem_of_mem_expire {kind : KeyKind} {e : Scored (Member ι)}
    (he : e ∈ (keys.expire kind time).log.value.entries) : e ∈ keys.log.value.entries := by
  cases kind with
  | total => exact he
  | log => exact SortedSetKey.mem_of_mem_expire he

end Timely

variable [DecidableEq κ] {cfg : Config κ}

/-- **One step** of the deadlines. -/
theorem timely_step {s s' : Server κ ι} {e : Event κ ι}
    (h : ∀ l ∈ cfg.limits, Timely l s.time (s.store l.name)) (hok : PastAdjust e)
    (hs : Step cfg s e s') : ∀ l ∈ cfg.limits, Timely l s'.time (s'.store l.name) := by
  intro l hl
  cases hs with
  | call c =>
    by_cases htouched : ∃ l' ∈ c.touched cfg, l'.name = l.name
    · obtain ⟨l', hl', hname⟩ := htouched
      have hmem : l' ∈ cfg.limits := touched_subset c hl'
      obtain rfl : l' = l := List.inj_on_of_nodup_map cfg.nodup hmem hl hname
      simp only [exec_touched _ _ _ _ hl']
      exact (h l' hl).onLimit _ _ hok
    · push Not at htouched
      simp only [exec_untouched _ _ _ _ htouched]
      exact h l hl
  | wait time hle => exact (h l hl).mono hle
  | expire name kind =>
    by_cases hname : l.name = name
    · subst hname
      simp only [Function.update_self]
      exact (h l hl).expire kind
    · simp only [Function.update_of_ne hname]
      exact h l hl
  | lose name kind =>
    by_cases hname : l.name = name
    · subst hname
      simp only [Function.update_self]
      exact (h l hl).delete kind
    · simp only [Function.update_of_ne hname]
      exact h l hl

theorem timely_of_run {tr : List (Event κ ι)} {s : Server κ ι} (h : (system cfg).Run tr s)
    (hok : ∀ e ∈ tr, PastAdjust e) : ∀ l ∈ cfg.limits, Timely l s.time (s.store l.name) := by
  refine System.Run.invariant (M := system cfg) (I := fun tr s => (∀ e ∈ tr, PastAdjust e) →
    ∀ l ∈ cfg.limits, Timely l s.time (s.store l.name)) ?_ ?_ h hok
  · intro s hs _ l _
    rw [hs]
    exact timely_initial
  · intro tr s e s' _ ih hs hok
    rw [List.forall_mem_cons] at hok
    exact timely_step (ih hok.2) hok.1 hs

end RedisSemaphore.RateLimiter
