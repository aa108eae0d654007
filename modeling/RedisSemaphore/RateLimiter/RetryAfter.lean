import RedisSemaphore.RateLimiter.Accounting
import RedisSemaphore.RateLimiter.Admission
import RedisSemaphore.RateLimiter.Expiry
import RedisSemaphore.SlidingWindow

/-!
# The wait of a denied acquire

A violated limit walks its log oldest first, in chunks of 128 entries, and stops at the entry whose
expiry frees enough units. `walk_eq` removes the chunks, `walkChunk_le_iff` says that the entry is
the first one to do so, and `retry_after_exact` puts the limits together: the wait is the shortest
after which the identical call is admitted, if no other script runs meanwhile.
-/

namespace RedisSemaphore.RateLimiter

open Redis Transition

variable {κ ι : Type*}

/-! ## Sums after a cutoff -/

/-- An entry counts if it is still in the window. -/
theorem sumAfter_cons (cutoff : ℤ) (e : Scored (Member ι)) (rest : List (Scored (Member ι))) :
    sumAfter cutoff (e :: rest) =
      (if cutoff < e.score then memberCost e.member else 0) + sumAfter cutoff rest := by
  unfold sumAfter
  by_cases hlt : cutoff < e.score
  · rw [if_pos hlt, List.filter_cons_of_pos (by simpa using hlt)]
    rfl
  · rw [if_neg hlt, List.filter_cons_of_neg (by simpa using hlt), zero_add]

/-- A later cutoff leaves no more. -/
theorem sumAfter_anti {cutoff cutoff' : ℤ} (h : cutoff ≤ cutoff')
    (entries : List (Scored (Member ι))) : sumAfter cutoff' entries ≤ sumAfter cutoff entries := by
  apply SlidingWindow.sum_filter_le_sum_filter
  · intro e
    exact Int.natCast_nonneg _
  · intro e _ hlt
    simp only [decide_eq_true_eq] at hlt ⊢
    omega

/-- Nothing is left out by a cutoff before every entry. -/
theorem sumAfter_of_forall {cutoff : ℤ} {entries : List (Scored (Member ι))}
    (h : ∀ e ∈ entries, cutoff < e.score) : sumAfter cutoff entries = sumCosts entries := by
  unfold sumAfter
  rw [List.filter_eq_self.mpr fun e he => decide_eq_true (h e he)]

/-! ## The walk -/

/-- **The walk stops at the right entry.** Over entries in the order of their scores, the units
freed by a cutoff reach `need` exactly from the score it stops at. -/
theorem walkChunk_le_iff {need freed score : ℤ} {entries : List (Scored (Member ι))}
    (hsorted : entries.Pairwise fun a b => a.score ≤ b.score) (hlt : freed < need)
    (hfound : walkChunk need freed entries = .inl score) :
    ∀ cutoff, need ≤ freed + (sumCosts entries - sumAfter cutoff entries) ↔ score ≤ cutoff := by
  induction entries generalizing freed with
  | nil => cases hfound
  | cons e rest ih =>
    rw [List.pairwise_cons] at hsorted
    obtain ⟨hfirst, hrest⟩ := hsorted
    have hsum : sumCosts (e :: rest) = memberCost e.member + sumCosts rest := rfl
    have hcost : 0 ≤ memberCost e.member := Int.natCast_nonneg _
    -- before its first entry, the list frees nothing
    have hnothing : ∀ c < e.score, sumAfter c rest = sumCosts rest := by
      intro c hc
      apply sumAfter_of_forall
      intro e' he'
      exact lt_of_lt_of_le hc (hfirst e' he')
    unfold walkChunk at hfound
    simp only at hfound
    intro cutoff
    rw [sumAfter_cons, hsum]
    by_cases hstop : need ≤ freed + memberCost e.member
    · rw [if_pos hstop] at hfound
      cases hfound
      by_cases hc : cutoff < e.score
      · rw [if_pos hc, hnothing cutoff hc]
        omega
      · have hle := sumAfter_anti (show e.score - 1 ≤ cutoff by omega) rest
        rw [hnothing (e.score - 1) (by omega)] at hle
        rw [if_neg hc]
        omega
    · rw [if_neg hstop] at hfound
      have hih := ih hrest (not_le.mp hstop) hfound
      by_cases hc : cutoff < e.score
      · -- the entry it stops at is no earlier than this one
        have hlate := hih cutoff
        rw [hnothing cutoff hc] at hlate
        rw [if_pos hc, hnothing cutoff hc]
        omega
      · rw [if_neg hc, ← hih cutoff]
        omega

/-- The walk stops if all the entries free enough. -/
theorem exists_walkChunk {need freed : ℤ} {entries : List (Scored (Member ι))}
    (hlt : freed < need) (h : need ≤ freed + sumCosts entries) :
    ∃ score, walkChunk need freed entries = .inl score := by
  induction entries generalizing freed with
  | nil =>
    have hzero : sumCosts ([] : List (Scored (Member ι))) = 0 := rfl
    omega
  | cons e rest ih =>
    have hsum : sumCosts (e :: rest) = memberCost e.member + sumCosts rest := rfl
    unfold walkChunk
    simp only
    by_cases hstop : need ≤ freed + memberCost e.member
    · exact ⟨e.score, if_pos hstop⟩
    · rw [if_neg hstop]
      exact ih (not_le.mp hstop) (by omega)

/-- A walk over two pieces goes on with what the first has freed. -/
theorem walkChunk_append (need freed : ℤ) (first second : List (Scored (Member ι))) :
    walkChunk need freed (first ++ second) =
      match walkChunk need freed first with
      | .inl score => .inl score
      | .inr freed => walkChunk need freed second := by
  induction first generalizing freed with
  | nil => rfl
  | cons e rest ih =>
    simp only [List.cons_append, walkChunk]
    by_cases hstop : need ≤ freed + memberCost e.member
    · rw [if_pos hstop, if_pos hstop]
    · rw [if_neg hstop, if_neg hstop]
      exact ih _

variable [LinearOrder (Member ι)]

/-- **Chunks make no difference**: with enough of them, the walk is one pass over what is left. -/
theorem walk_eq (z : SortedSet (Member ι)) (need : ℤ) (fuel start : ℕ) (freed : ℤ)
    (henough : z.zcard ≤ start + 128 * fuel) :
    walk z need fuel start freed = (walkChunk need freed (z.entries.drop start)).getLeft? := by
  induction fuel generalizing start freed with
  | zero =>
    have hnil : z.entries.drop start = [] := List.drop_eq_nil_of_le henough
    rw [hnil]
    rfl
  | succ fuel ih =>
    have hchunk : z.zrange start (start + 127) = (z.entries.drop start).take 128 := by
      unfold SortedSet.zrange
      congr 1
      omega
    have hsplit : z.entries.drop start =
        (z.entries.drop start).take 128 ++ z.entries.drop (start + 128) := by
      rw [← List.drop_drop, List.take_append_drop]
    unfold walk
    simp only
    rw [hchunk]
    by_cases hnil : (z.entries.drop start).take 128 = []
    · rw [if_pos hnil]
      have hdone : z.entries.drop start = [] := by
        simpa using hnil
      rw [hdone]
      rfl
    · rw [if_neg hnil]
      conv_rhs => rw [hsplit, walkChunk_append]
      cases walkChunk need freed ((z.entries.drop start).take 128) with
      | inl score => rfl
      | inr freed' => exact ih (start + 128) freed' (by omega)

/-- The wait of a violated limit, whose log holds entries of the window only, is the shortest after
which `need` units have left the window. -/
theorem waitFor_le_iff {z : SortedSet (Member ι)} {need : ℤ} (nowMs windowMs d : ℤ)
    (hneed : 0 < need) (henough : need ≤ sumCosts z.entries)
    (hwindow : ∀ e ∈ z.entries, nowMs - windowMs < e.score) :
    waitFor z need nowMs windowMs ≤ d ↔
      need ≤ sumCosts z.entries - sumAfter (nowMs + d - windowMs) z.entries := by
  have hsorted : z.entries.Pairwise fun a b => a.score ≤ b.score := by
    apply z.sorted.imp
    intro a b
    exact Scored.score_le
  obtain ⟨score, hscore⟩ := exists_walkChunk hneed (show need ≤ 0 + sumCosts z.entries by omega)
  have hstops := walkChunk_le_iff hsorted hneed hscore
  have hwalk : walk z need (z.zcard / 128 + 1) 0 0 = some score := by
    rw [walk_eq z need _ 0 0 (by omega), List.drop_zero, hscore]
    rfl
  -- no wait at all is not enough, so the wait is positive
  have hpositive : ¬ score ≤ nowMs - windowMs := by
    rw [← hstops, sumAfter_of_forall hwindow]
    omega
  have hmoment := hstops (nowMs + d - windowMs)
  unfold waitFor
  rw [hwalk]
  simp only
  rw [if_neg (by omega)]
  omega

/-! ## One limit -/

section Limit

variable {keys : LimitKeys ι} {nowMs : ℤ} {windowMs : ℕ} {identifier : ι}

/-- What is in the window is the same for the log and for what `evict` leaves of it. -/
theorem sumAfter_evict (time ttlMs : ℤ) {cutoff cutoff' : ℤ} (h : cutoff ≤ cutoff') :
    sumAfter cutoff' (evict time cutoff ttlMs keys).2.log.value.entries =
      sumAfter cutoff' keys.log.value.entries := by
  rw [log_evict]
  show sumCosts ((keys.log.value.entries.filter _).filter _) = sumCosts _
  rw [List.filter_filter]
  congr 1
  apply List.filter_congr
  intro e _
  simp only [Bool.and_eq_decide, decide_eq_true_eq, decide_eq_decide]
  omega

/-- `evict` counts the costs in the window. -/
theorem evict_eq_sumAfter (h : Consistent keys) (time cutoff ttlMs : ℤ) :
    (evict time cutoff ttlMs keys).1 = sumAfter cutoff keys.log.value.entries := by
  rw [(evict_accounted time cutoff ttlMs h).2, ← sumAfter_evict time ttlMs le_rfl,
    sumAfter_of_forall fun e he => (mem_log_evict.mp he).2]

/-- **The wait of one limit**: after `d`, and not before, its window has room for the request. -/
theorem wait_le_iff {limit cost : ℕ} {d : ℤ} (h : Consistent keys) (hcost : cost ≤ limit)
    (hd : 0 ≤ d) :
    ((limit : ℤ) < (evict nowMs (nowMs - windowMs) (windowMs * 2) keys).1 + cost →
        waitFor (evict nowMs (nowMs - windowMs) (windowMs * 2) keys).2.log.value
          ((evict nowMs (nowMs - windowMs) (windowMs * 2) keys).1 + cost - limit)
          nowMs windowMs ≤ d) ↔
      sumAfter (nowMs + d - windowMs) keys.log.value.entries + cost ≤ limit := by
  have htotal := (evict_accounted nowMs (nowMs - windowMs) (windowMs * 2) h).2
  have hcount := evict_eq_sumAfter h nowMs (nowMs - windowMs) (windowMs * 2)
  have hlater : nowMs - (windowMs : ℤ) ≤ nowMs + d - windowMs := by omega
  have hleft : sumAfter _ (evict nowMs _ _ keys).2.log.value.entries = _ :=
    sumAfter_evict nowMs (windowMs * 2) hlater
  have hwindow : ∀ e ∈ (evict nowMs (nowMs - windowMs) (windowMs * 2) keys).2.log.value.entries,
      nowMs - windowMs < e.score := fun e he => (mem_log_evict.mp he).2
  set seen := evict nowMs (nowMs - windowMs) (windowMs * 2) keys
  by_cases hviolated : (limit : ℤ) < seen.1 + cost
  · rw [waitFor_le_iff nowMs windowMs d (by omega) (by omega) hwindow, hleft]
    constructor
    · intro hfreed
      have hfreed := hfreed hviolated
      omega
    · intro hfits _
      omega
  · have hanti := sumAfter_anti hlater keys.log.value.entries
    constructor
    · intro _
      omega
    · intro _ hlt
      exact absurd hlt hviolated

/-- No entry of the log is the request's. -/
def Unrecorded (identifier : ι) (keys : LimitKeys ι) : Prop :=
  ∀ e ∈ keys.log.value.entries, e.member.identifier ≠ identifier

/-- An identifier that is not recorded is not recorded at any cost. -/
theorem Unrecorded.not_recorded (h : Unrecorded identifier keys) (cost : ℕ) :
    ¬ Recorded identifier cost keys := by
  rintro ⟨-, hsome⟩
  obtain ⟨score, hscore⟩ := Option.isSome_iff_exists.mp hsome
  exact h _ (SortedSet.zscore_eq_some.mp hscore) rfl

/-- Eviction records nobody. -/
theorem Unrecorded.evict (h : Unrecorded identifier keys) (time cutoff ttlMs : ℤ) :
    Unrecorded identifier (evict time cutoff ttlMs keys).2 := by
  intro e he
  exact h e (mem_log_evict.mp he).1

end Limit

/-! ## All limits -/

section Loop

variable [DecidableEq κ] {identifier : ι} {nowMs time : ℤ}

/-- One iteration over a limit that has not seen the request. -/
theorem retryAfter_checkLimit {a : AcquireArg κ} {check : Check κ ι} {seen : ℤ × LimitKeys ι}
    (hseen : evict time (nowMs - a.windowMs) (a.windowMs * 2) (check.store a.name) = seen)
    (hfresh : Unrecorded identifier seen.2) (halready : check.already = false) (d : ℤ) :
    (checkLimit identifier nowMs time a check).already = false ∧
      ((checkLimit identifier nowMs time a check).retryAfter ≤ d ↔
        check.retryAfter ≤ d ∧ (0 < a.cost → (a.limit : ℤ) < seen.1 + a.cost →
          waitFor seen.2.log.value (seen.1 + a.cost - a.limit) nowMs a.windowMs ≤ d)) := by
  have hnot := hfresh.not_recorded a.cost
  have hkept : (check.already || (decide (0 < a.cost) &&
      (seen.2.log.value.zscore ⟨a.cost, identifier⟩).isSome)) = false := by
    rw [halready, Bool.false_or, Bool.eq_false_iff]
    intro h
    rw [Bool.and_eq_true, decide_eq_true_eq] at h
    exact hnot h
  simp only [checkLimit, hseen, hkept, true_and]
  by_cases hviolated : 0 < a.cost ∧ (a.limit : ℤ) < seen.1 + a.cost
  · rw [if_pos hviolated]
    simp only [hviolated.1, hviolated.2, true_implies]
    split
    · omega
    · omega
  · rw [if_neg hviolated]
    constructor
    · intro hle
      exact ⟨hle, fun hpos hlt => absurd ⟨hpos, hlt⟩ hviolated⟩
    · exact And.left

/-- The loop over limits that have not seen the request takes the longest wait. -/
theorem retryAfter_foldl (seen : AcquireArg κ → ℤ × LimitKeys ι) (check : Check κ ι)
    {args : List (AcquireArg κ)} (hnodup : (args.map AcquireArg.name).Nodup)
    (hseen : ∀ a ∈ args,
      evict time (nowMs - a.windowMs) (a.windowMs * 2) (check.store a.name) = seen a)
    (hfresh : ∀ a ∈ args, Unrecorded identifier (seen a).2) (halready : check.already = false)
    (d : ℤ) :
    (args.foldl (fun check a => checkLimit identifier nowMs time a check) check).retryAfter ≤ d ↔
      check.retryAfter ≤ d ∧ ∀ a ∈ args, 0 < a.cost → (a.limit : ℤ) < (seen a).1 + a.cost →
        waitFor (seen a).2.log.value ((seen a).1 + a.cost - a.limit) nowMs a.windowMs ≤ d := by
  induction args generalizing check with
  | nil => simp
  | cons a rest ih =>
    rw [List.map_cons, List.nodup_cons] at hnodup
    rw [List.forall_mem_cons] at hseen hfresh
    obtain ⟨hstill, hone⟩ := retryAfter_checkLimit hseen.1 hfresh.1 halready d
    have hstore := seen_checkLimit identifier hnodup.1 hseen.2
    rw [List.foldl_cons, ih _ hnodup.2 hstore hfresh.2 hstill, hone, List.forall_mem_cons,
      and_assoc]

end Loop

/-- The window of a limit has room for the request at `time`. -/
def HasRoom (cost : κ → ℕ) (time : ℤ) (store : κ → LimitKeys ι) (l : Limit κ) : Prop :=
  0 < cost l.name →
    sumAfter (time - l.windowMs) (store l.name).log.value.entries + cost l.name ≤ l.limit

section Acquire

variable [DecidableEq κ] {cfg : Config κ} {identifier : ι} {cost : κ → ℕ} {time : ℤ}
  {store : κ → LimitKeys ι}

/-- **What an acquire answers** to a new request: the shortest wait after which every window has
room. -/
theorem retryAfter_le_iff (hconsistent : ∀ name, Consistent (store name))
    (hcost : ∀ l ∈ cfg.limits, cost l.name ≤ l.limit)
    (hfresh : ∀ l ∈ cfg.limits, Unrecorded identifier (store l.name)) {d : ℤ} (hd : 0 ≤ d) :
    (rateAcquire identifier time time (acquireArgs cfg cost) store).1.retryAfter ≤ d ↔
      ∀ l ∈ cfg.limits, HasRoom cost (time + d) store l := by
  have hseen : ∀ a ∈ acquireArgs cfg cost, Unrecorded identifier
      (evict time (time - a.windowMs) (a.windowMs * 2) (store a.name)).2 := by
    unfold acquireArgs
    rw [List.forall_mem_map]
    intro l hl
    exact (hfresh l hl).evict _ _ _
  have hloop := retryAfter_foldl
    (fun a => evict time (time - a.windowMs) (a.windowMs * 2) (store a.name))
    ⟨store, [], 0, false⟩ (acquireArgs_nodup cfg cost) (fun a _ => rfl) hseen rfl d
  have hreply : (rateAcquire identifier time time (acquireArgs cfg cost) store).1.retryAfter =
      (checkLimits identifier time time (acquireArgs cfg cost) store).retryAfter := by
    unfold rateAcquire
    simp only
    split
    · rfl
    · rfl
  rw [hreply, checkLimits, hloop, and_iff_right hd]
  unfold acquireArgs
  rw [List.forall_mem_map]
  refine forall₂_congr fun l hl => ?_
  unfold HasRoom
  refine forall_congr' fun _ => ?_
  exact wait_le_iff (hconsistent l.name) (hcost l hl) hd

/-- An acquire is denied with a wait, and admitted without. -/
theorem success_eq_false_iff :
    (rateAcquire identifier time time (acquireArgs cfg cost) store).1.success = false ↔
      0 < (rateAcquire identifier time time (acquireArgs cfg cost) store).1.retryAfter := by
  unfold rateAcquire
  simp only
  split
  · rename_i hpositive
    exact iff_of_true rfl hpositive
  · rename_i hzero
    exact iff_of_false (by simp) hzero

/-- A new request is denied if some window has no room for it. -/
theorem denied_iff (hconsistent : ∀ name, Consistent (store name))
    (hcost : ∀ l ∈ cfg.limits, cost l.name ≤ l.limit)
    (hfresh : ∀ l ∈ cfg.limits, Unrecorded identifier (store l.name)) :
    (rateAcquire identifier time time (acquireArgs cfg cost) store).1.success = false ↔
      ∃ l ∈ cfg.limits, ¬ HasRoom cost time store l := by
  rw [success_eq_false_iff, ← not_le, retryAfter_le_iff hconsistent hcost hfresh le_rfl]
  push Not
  simp only [add_zero]

end Acquire

/-! ## While nobody else calls -/

/-- No script runs, and no key is lost before its deadline. -/
def Quiet : Event κ ι → Prop
  | .call _ _ _ => False
  | .wait _ => True
  | .expire _ _ => True
  | .lose _ _ => False

/-- What is left of a log some time after a script: nothing new, and all of the window. -/
structure Aged (l : Limit κ) (before : LimitKeys ι) (time : ℤ) (after : LimitKeys ι) : Prop where
  old : ∀ e ∈ after.log.value.entries, e ∈ before.log.value.entries
  kept : ∀ e ∈ before.log.value.entries, time - l.windowMs < e.score →
    e ∈ after.log.value.entries

/-- Both logs hold the same units of the window. -/
theorem Aged.sumAfter_eq {l : Limit κ} {before after : LimitKeys ι} {time : ℤ}
    (h : Aged l before time after) :
    sumAfter (time - l.windowMs) after.log.value.entries =
      sumAfter (time - l.windowMs) before.log.value.entries := by
  have hwindow : after.log.value.zremRangeByScore (time - l.windowMs) =
      before.log.value.zremRangeByScore (time - l.windowMs) := by
    apply SortedSet.ext_mem
    intro e
    rw [SortedSet.mem_zremRangeByScore, SortedSet.mem_zremRangeByScore]
    exact and_congr_left fun hlt => ⟨h.old e, fun he => h.kept e he hlt⟩
  exact congrArg (fun z : SortedSet (Member ι) => sumCosts z.entries) hwindow

section Quiet

variable [DecidableEq κ] {cfg : Config κ} {s s' : Server κ ι} {e : Event κ ι}

omit [LinearOrder (Member ι)] [DecidableEq κ] in
/-- Where nobody calls nobody adjusts. -/
theorem Quiet.pastAdjust (h : Quiet e) : PastAdjust e := by
  cases e with
  | call t c r => exact h.elim
  | wait time => trivial
  | expire name kind => trivial
  | lose name kind => exact h.elim

/-- Time and expiry leave the window as it is. -/
theorem aged_step {store : κ → LimitKeys ι}
    (htimely : ∀ l ∈ cfg.limits, Timely l s.time (s.store l.name))
    (h : ∀ l ∈ cfg.limits, Aged l (store l.name) s.time (s.store l.name)) (hquiet : Quiet e)
    (hstep : Step cfg s e s') :
    ∀ l ∈ cfg.limits, Aged l (store l.name) s'.time (s'.store l.name) := by
  intro l hl
  cases hstep with
  | call c => exact hquiet.elim
  | wait time hle =>
    refine ⟨(h l hl).old, fun e he hlt => (h l hl).kept e he ?_⟩
    simp only at hlt
    omega
  | expire name kind =>
    by_cases hname : l.name = name
    · subst hname
      simp only [Function.update_self]
      refine ⟨fun e he => (h l hl).old e (mem_of_mem_expire he), fun e he hlt => ?_⟩
      exact (htimely l hl).mem_expire kind ((h l hl).kept e he hlt) hlt
    · simp only [Function.update_of_ne hname]
      exact h l hl
  | lose name kind => exact hquiet.elim

/-- A while later. `store` is what the scripts have left. -/
theorem aged_path {store : κ → LimitKeys ι} {tr : List (Event κ ι)}
    (hconsistent : ∀ name, Consistent (s.store name))
    (htimely : ∀ l ∈ cfg.limits, Timely l s.time (s.store l.name))
    (haged : ∀ l ∈ cfg.limits, Aged l (store l.name) s.time (s.store l.name))
    (hpath : ((system cfg).restrict fun _ => Quiet).Path s tr s') :
    s.time ≤ s'.time ∧ (∀ name, Consistent (s'.store name)) ∧
      (∀ l ∈ cfg.limits, Timely l s'.time (s'.store l.name)) ∧
      ∀ l ∈ cfg.limits, Aged l (store l.name) s'.time (s'.store l.name) := by
  refine System.Path.invariant (I := fun _ t => s.time ≤ t.time ∧
    (∀ name, Consistent (t.store name)) ∧ (∀ l ∈ cfg.limits, Timely l t.time (t.store l.name)) ∧
    ∀ l ∈ cfg.limits, Aged l (store l.name) t.time (t.store l.name)) ?_ ?_ hpath
  · exact ⟨le_rfl, hconsistent, htimely, haged⟩
  · intro tr t e u _ hinv hstep
    obtain ⟨hle, hconsistent, htimely, haged⟩ := hinv
    obtain ⟨hquiet, hmove⟩ := hstep
    refine ⟨?_, consistent_step hconsistent hmove, ?_, aged_step htimely haged hquiet hmove⟩
    · cases hmove with
      | call c => exact hquiet.elim
      | wait time hlater => exact hle.trans hlater
      | expire name kind => exact hle
      | lose name kind => exact hquiet.elim
    · exact timely_step htimely hquiet.pastAdjust hmove

/-- What a denied acquire leaves. -/
theorem aged_denied {identifier : ι} {cost : κ → ℕ} {time : ℤ} {store : κ → LimitKeys ι}
    (hdenied : (rateAcquire identifier time time (acquireArgs cfg cost) store).1.success = false)
    {l : Limit κ} (hl : l ∈ cfg.limits) :
    Aged l (store l.name) time
      ((exec cfg (.acquire identifier cost) time store).2 l.name) := by
  have hadmitted : (exec cfg (.acquire identifier cost) time store).1.admitted = false := hdenied
  rw [exec_touched cfg time store (.acquire identifier cost) hl, hadmitted]
  refine ⟨fun e he => (mem_log_evict.mp he).1, fun e he hlt => ?_⟩
  exact mem_log_evict.mpr ⟨he, hlt⟩

end Quiet

/-- **`retry_after` is exact.** In every state a limiter can be in, a new request that fits each
limit by itself is denied if and only if some window it is charged to has no room for it; and then
the identical call, made later with no other script in between, is admitted if and only if the wait
it was told has passed. -/
theorem retry_after_exact [DecidableEq κ] {cfg : Config κ} {tr : List (Event κ ι)}
    {s : Server κ ι} {identifier : ι} {cost : κ → ℕ} (h : (system cfg).Run tr s)
    (hpast : ∀ e ∈ tr, PastAdjust e) (hcost : ∀ l ∈ cfg.limits, cost l.name ≤ l.limit)
    (hfresh : ∀ l ∈ cfg.limits, Unrecorded identifier (s.store l.name)) :
    let reply := (rateAcquire identifier s.time s.time (acquireArgs cfg cost) s.store).1
    let after := (exec cfg (.acquire identifier cost) s.time s.store).2
    (reply.success = false ↔ ∃ l ∈ cfg.limits, 0 < cost l.name ∧
        (l.limit : ℤ) < sumAfter (s.time - l.windowMs) (s.store l.name).log.value.entries
          + cost l.name) ∧
      (reply.success = false → 1 ≤ reply.retryAfter ∧
        ∀ tr' s', ((system cfg).restrict fun _ => Quiet).Path ⟨s.time, after⟩ tr' s' →
          ((rateAcquire identifier s'.time s'.time (acquireArgs cfg cost) s'.store).1.success =
            true ↔ s.time + reply.retryAfter ≤ s'.time)) := by
  intro reply after
  have hconsistent := consistent_of_run h
  have htimely := timely_of_run h hpast
  have hdenied : reply.success = false ↔ _ := denied_iff hconsistent hcost hfresh
  refine ⟨?_, fun hfalse => ⟨success_eq_false_iff.mp hfalse, fun tr' s' hpath => ?_⟩⟩
  · rw [hdenied]
    unfold HasRoom
    push Not
    rfl
  · have hstep : Step cfg s _ ⟨s.time, after⟩ := .call s (.acquire identifier cost)
    have hok : PastAdjust (.call s.time (.acquire identifier cost)
      (exec cfg (.acquire identifier cost) s.time s.store).1) := trivial
    obtain ⟨hle, hconsistent', -, haged⟩ := aged_path (consistent_step hconsistent hstep)
      (timely_step htimely hok hstep) (fun l hl => aged_denied hfalse hl) hpath
    have hle : s.time ≤ s'.time := hle
    have hfresh' : ∀ l ∈ cfg.limits, Unrecorded identifier (s'.store l.name) :=
      fun l hl e he => hfresh l hl e ((haged l hl).old e he)
    have hroom : ∀ l ∈ cfg.limits,
        (HasRoom cost s'.time s'.store l ↔ HasRoom cost s'.time s.store l) := by
      intro l hl
      unfold HasRoom
      rw [(haged l hl).sumAfter_eq]
    have hlater : reply.retryAfter ≤ s'.time - s.time ↔ _ :=
      retryAfter_le_iff hconsistent hcost hfresh (by omega)
    rw [← Bool.not_eq_false, denied_iff hconsistent' hcost hfresh']
    push Not
    rw [forall₂_congr hroom]
    rw [add_sub_cancel] at hlater
    rw [← hlater]
    omega

/-- Five units of every limit. -/
def fiveUnits : ℕ → ℕ := fun _ => 5

/-- Four units at 1000 ms and six at 1200 fill a window of ten. A request for five units at 1500 has
to wait for both. -/
theorem retry_after_exact_tenPerSecond : ∃ store : ℕ → LimitKeys ℕ,
    (rateAcquire 9 1500 1500 (acquireArgs tenPerSecond fiveUnits) store).1.retryAfter = 700 ∧
    ∀ tr' s', ((system tenPerSecond).restrict fun _ => Quiet).Path
        ⟨1500, (exec tenPerSecond (.acquire 9 fiveUnits) 1500 store).2⟩ tr' s' →
      ((rateAcquire 9 s'.time s'.time (acquireArgs tenPerSecond fiveUnits) s'.store).1.success =
        true ↔ 1500 + 700 ≤ s'.time) := by
  have h₀ : (system tenPerSecond).Run [] (⟨1000, fun _ => LimitKeys.initial⟩ : Server ℕ ℕ) :=
    .start rfl
  have h₁ := h₀.step (.call _ (.acquire 7 fun _ => 4))
  have h₂ := h₁.step (.wait _ 1200 (by decide))
  have h₃ := h₂.step (.call _ (.acquire 8 fun _ => 6))
  have h₄ := h₃.step (.wait _ 1500 (by decide))
  have hfresh : ∀ l ∈ tenPerSecond.limits, Unrecorded 9
      ((exec tenPerSecond (.acquire 8 fun _ => 6) 1200 (exec tenPerSecond (.acquire 7 fun _ => 4)
        1000 fun _ => LimitKeys.initial).2).2 l.name) := by
    unfold Unrecorded
    decide
  have hcost : ∀ l ∈ tenPerSecond.limits, fiveUnits l.name ≤ l.limit := by decide
  obtain ⟨-, hwait⟩ := retry_after_exact h₄ (by simp [PastAdjust]) hcost hfresh
  exact ⟨_, by decide, (hwait (by decide)).2⟩

end RedisSemaphore.RateLimiter
