import RedisSemaphore.RateLimiter.Limits

/-!
# Exact accounting

The totals survive the loss of either key: a lost total is rebuilt from the log, and a total whose
log is gone is dropped. Between scripts every limit is `Consistent`, and `onLimit_accounted` turns
that into settled accounts after each script.
-/

namespace RedisSemaphore.RateLimiter

open Redis Transition

variable {κ ι : Type*} [LinearOrder (Member ι)]

/-- The sum of the costs recorded with an admission time after `cutoff`. -/
def sumAfter (cutoff : ℤ) (entries : List (Scored (Member ι))) : ℤ :=
  sumCosts (entries.filter fun e => cutoff < e.score)

theorem consistent_initial : Consistent (LimitKeys.initial : LimitKeys ι) := by
  intro total _ hne
  exact absurd rfl hne

theorem Consistent.expire {keys : LimitKeys ι} (h : Consistent keys) (kind : KeyKind) (time : ℤ) :
    Consistent (keys.expire kind time) := by
  intro total htotal hne
  cases kind with
  | log =>
    rcases SortedSetKey.expire_cases time keys.log with heq | ⟨heq, -⟩
    · simp only [LimitKeys.expire, heq] at htotal hne ⊢
      exact h total htotal hne
    · simp [LimitKeys.expire, heq] at hne
  | total => exact h total (CounterKey.get_expire htotal) hne

theorem Consistent.delete {keys : LimitKeys ι} (kind : KeyKind) :
    Consistent (keys.delete kind) := by
  intro total htotal hne
  cases kind with
  | log => exact absurd rfl hne
  | total => cases htotal

variable [DecidableEq κ] {cfg : Config κ}

/-- **One step** of the accounts. -/
theorem consistent_step {s s' : Server κ ι} {e : Event κ ι}
    (h : ∀ name, Consistent (s.store name)) (hs : Step cfg s e s') (name : κ) :
    Consistent (s'.store name) := by
  cases hs with
  | call c =>
    by_cases htouched : ∃ l ∈ c.touched cfg, l.name = name
    · obtain ⟨l, hl, rfl⟩ := htouched
      simp only [exec_touched _ _ _ _ hl]
      exact (onLimit_accounted (h l.name)).1.consistent
    · push Not at htouched
      simp only [exec_untouched _ _ _ _ htouched]
      exact h name
  | wait time hle => exact h name
  | expire name' kind =>
    by_cases hname : name = name'
    · subst hname
      simp only [Function.update_self]
      exact (h name).expire kind s.time
    · simp only [Function.update_of_ne hname]
      exact h name
  | lose name' kind =>
    by_cases hname : name = name'
    · subst hname
      simp only [Function.update_self]
      exact Consistent.delete kind
    · simp only [Function.update_of_ne hname]
      exact h name

theorem consistent_of_run {tr : List (Event κ ι)} {s : Server κ ι}
    (h : (system cfg).Run tr s) : ∀ name, Consistent (s.store name) := by
  refine System.Run.invariant (I := fun _ s => ∀ name, Consistent (s.store name)) ?_
    (fun tr s e s' _ ih hs => consistent_step ih hs) h
  intro s hs name
  rw [hs]
  exact consistent_initial

/-- **Accounting is exact.** In every run, in which keys may expire or be lost between any two
scripts, after every script and for every limit it touched: the total is the sum of the log, or
absent if the log is empty, and the figure reported is the sum of the costs recorded after
`now - window`. -/
theorem accounting_exact {tr : List (Event κ ι)} {s : Server κ ι} {t : ℤ} {c : Call κ ι}
    {r : Reply} (h : (system cfg).Run (.call t c r :: tr) s) :
    List.Forall₂ (fun l used =>
        Accounted (s.store l.name) ∧
        used = sumAfter (t - l.windowMs) (s.store l.name).log.value.entries)
      (c.touched cfg) r.figures := by
  obtain ⟨s₀, hrun, hstep⟩ := h.of_cons
  cases hstep with
  | call c =>
    refine exec_forall₂ (P := fun l used keys => Accounted keys ∧
      used = sumAfter (s₀.time - l.windowMs) keys.log.value.entries) fun l _ => ?_
    obtain ⟨haccounted, hsum⟩ := onLimit_accounted (l := l) (consistent_of_run hrun l.name)
    refine ⟨haccounted, ?_⟩
    rw [hsum, sumAfter, List.filter_eq_self.mpr fun e he => ?_]
    exact decide_eq_true (score_of_mem_onLimit he)

/-- A limit of ten units per second. -/
def tenUnits : Limit ℕ := ⟨0, 10, 1000, by decide, by decide⟩

/-- A limiter with this one limit. -/
def tenPerSecond : Config ℕ where
  limits := [tenUnits]
  nonempty := by decide
  nodup := by decide

/-- The total of a limit is lost and rebuilt by the next status call. -/
theorem accounting_exact_lost_total :
    ∃ s : Server ℕ ℕ, (s.store 0).total.get = some 4 ∧
      List.Forall₂ (fun l used =>
          Accounted (s.store l.name) ∧
          used = sumAfter (1000 - l.windowMs) (s.store l.name).log.value.entries)
        tenPerSecond.limits [4] := by
  have hstart : (system tenPerSecond).Run [] (⟨1000, fun _ => LimitKeys.initial⟩ : Server ℕ ℕ) :=
    .start rfl
  have hcharged := hstart.step (.call _ (.acquire 7 fun _ => 4))
  have hlost := hcharged.step (.lose _ 0 .total)
  exact ⟨_, by decide, accounting_exact (hlost.step (.call _ .status))⟩

end RedisSemaphore.RateLimiter
