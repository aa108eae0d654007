import RedisSemaphore.RateLimiter.Denials
import RedisSemaphore.RateLimiter.RetryAfter
import RedisSemaphore.Simulation
import RedisSemaphore.WindowService

/-!
# The scripts implement a sliding-window service

The log with its lazy eviction, the running total with its repairs, the chunked walk and the expiry
of both keys are a way to count without keeping everything. `Refines` ties a server to the service
of `WindowService`, which keeps everything: inside each window the log of a limit holds the
admissions charged to it. What clients see of a run of the scripts is then a run of the service. The
expiry of either key and the loss of a total do not show.

The loss of a log does show, and so does a request whose identifier is used for another one, or an
adjust that names costs the request is not recorded with. `Promised` leaves these out.
-/

namespace RedisSemaphore.RateLimiter

open Redis KeyedLoop Transition SlidingWindow WindowService

variable {κ ι : Type*}

/-! ## What clients see -/

/-- A limit of the service. -/
def Limit.plain (l : Limit κ) : WindowService.Limit κ := ⟨l.name, l.limit, l.windowMs⟩

/-- The limits of a limiter. -/
def Config.plain (cfg : Config κ) : List (WindowService.Limit κ) := cfg.limits.map Limit.plain

/-- A call and its reply, as the client understands them. Nobody sees Redis drop a key. -/
def observe : Event κ ι → Option (WindowService.Event κ ι)
  | .call t (.acquire i cost) (.acquire reply) =>
    some (.acquire t i cost (if reply.success then none else some reply.retryAfter) reply.used)
  | .call t (.adjust i acquiredAt change) (.used used) => some (.adjust t i acquiredAt change used)
  | .call t .status (.used used) => some (.inspect t used)
  | .wait time => some (.wait time)
  | _ => none

/-- Clients keep to `Proper`, and no log is lost before its deadline. -/
def Promised [DecidableEq ι] (cfg : Config κ) (tr : List (Event κ ι)) (e : Event κ ι) : Prop :=
  (∀ o, observe e = some o → Proper cfg.plain (tr.filterMap observe) o) ∧
    ∀ name, e ≠ .lose name .log

section Promised

variable [DecidableEq ι] {cfg : Config κ} {tr : List (Event κ ι)} {e : Event κ ι}

/-- A call that the service sees keeps its promises if it is proper there. -/
theorem promised_of_observed {o : WindowService.Event κ ι} (ho : observe e = some o)
    (h : Proper cfg.plain (tr.filterMap observe) o) : Promised cfg tr e := by
  refine ⟨fun o' ho' => ?_, fun name heq => ?_⟩
  · rw [ho, Option.some.injEq] at ho'
    exact ho' ▸ h
  · rw [heq] at ho
    cases ho

/-- An event that the service does not see promises nothing, unless it loses a log. -/
theorem promised_of_hidden (ho : observe e = none) (h : ∀ name, e ≠ .lose name .log) :
    Promised cfg tr e := by
  refine ⟨fun o ho' => ?_, h⟩
  rw [ho] at ho'
  cases ho'

end Promised

/-! ## One limit -/

/-- The log element of an admission. -/
def entry (name : κ) (a : Admission κ ι) : Scored (Member ι) :=
  ⟨⟨a.cost name, a.identifier⟩, a.admittedAt⟩

variable [LinearOrder (Member ι)]

/-- Inside its window a limit records the admissions it was charged for, and nothing is recorded for
a request that was never admitted. -/
structure Mirrors (log : List (Admission κ ι)) (l : Limit κ) (time : ℤ) (keys : LimitKeys ι) :
    Prop where
  recorded : ∀ e, time - l.windowMs < e.score → (e ∈ keys.log.value.entries ↔
    ∃ a ∈ log, 0 < a.cost l.name ∧ entry l.name a = e)
  known : ∀ e ∈ keys.log.value.entries, ∃ a ∈ log, a.identifier = e.member.identifier

section Mirrors

variable {log : List (Admission κ ι)} {l : Limit κ} {time : ℤ} {keys : LimitKeys ι}

/-- Empty keys mirror a log of which nothing is left in the window. -/
theorem mirrors_initial : Mirrors log l time (LimitKeys.initial : LimitKeys ι) ↔
    ∀ a ∈ log, 0 < a.cost l.name → a.admittedAt ≤ time - l.windowMs := by
  constructor
  · intro h a ha hpos
    by_contra hwin
    have hmem := (h.recorded (entry l.name a) (not_le.mp hwin)).mpr ⟨a, ha, hpos, rfl⟩
    cases hmem
  · intro h
    refine ⟨fun e hwin => ⟨fun he => (by cases he), ?_⟩, fun e he => (by cases he)⟩
    rintro ⟨a, ha, hpos, rfl⟩
    exact absurd (h a ha hpos) (not_le.mpr hwin)

/-- As time passes less has to be mirrored. -/
theorem Mirrors.mono (h : Mirrors log l time keys) {time' : ℤ} (hle : time ≤ time') :
    Mirrors log l time' keys :=
  ⟨fun e hwin => h.recorded e (by omega), h.known⟩

/-- What changes outside the window only, and adds nothing. -/
theorem Mirrors.of_alike (h : Mirrors log l time keys) {keys' : LimitKeys ι}
    (halike : Alike (time - l.windowMs) keys' keys)
    (hsub : ∀ e ∈ keys'.log.value.entries, e ∈ keys.log.value.entries) :
    Mirrors log l time keys' :=
  ⟨fun e hwin => (halike e hwin).trans (h.recorded e hwin), fun e he => h.known e (hsub e he)⟩

/-- An eviction removes only what is not mirrored any more. -/
theorem Mirrors.evict (h : Mirrors log l time keys) (ttlMs : ℤ) :
    Mirrors log l time (evict time (time - l.windowMs) ttlMs keys).2 :=
  h.of_alike (alike_evict keys) fun _ he => (mem_log_evict.mp he).1

/-- Expiry comes after the window has passed. -/
theorem Mirrors.expire (h : Mirrors log l time keys) (htimely : Timely l time keys)
    (kind : KeyKind) : Mirrors log l time (keys.expire kind time) :=
  h.of_alike (alike_expire htimely kind) fun _ he => mem_of_mem_expire he

/-- An identifier that is new to the service is not recorded. -/
theorem Mirrors.unrecorded (h : Mirrors log l time keys) {i : ι}
    (hfresh : ∀ a ∈ log, a.identifier ≠ i) : Unrecorded i keys := by
  intro e he heq
  obtain ⟨a, ha, hi⟩ := h.known e he
  exact hfresh a ha (hi.trans heq)

/-- **The log counts what the service counts**, at any moment from now on. -/
theorem Mirrors.usage (h : Mirrors log l time keys) (hpast : ∀ a ∈ log, a.admittedAt ≤ time)
    (hdistinct : (log.map Admission.identifier).Nodup) {u : ℤ} (hu : time ≤ u) :
    sumAfter (u - l.windowMs) keys.log.value.entries = usage log l.plain u := by
  classical
  let kept := (log.filter fun a => u - l.windowMs < a.admittedAt ∧ a.admittedAt ≤ u).filter
    fun a => (a.cost l.name : ℤ) ≠ 0
  have hmem : ∀ a, a ∈ kept ↔ a ∈ log ∧ u - l.windowMs < a.admittedAt ∧ 0 < a.cost l.name := by
    intro a
    simp only [kept, List.mem_filter, decide_eq_true_eq, Nat.cast_ne_zero, Nat.pos_iff_ne_zero]
    exact ⟨fun ⟨⟨ha, hwin, _⟩, hpos⟩ => ⟨ha, hwin, hpos⟩,
      fun ⟨ha, hwin, hpos⟩ => ⟨⟨ha, hwin, (hpast a ha).trans hu⟩, hpos⟩⟩
  have hnodup : (kept.map (entry l.name)).Nodup := by
    refine List.Nodup.of_map (fun e : Scored (Member ι) => e.member.identifier) ?_
    rw [List.map_map]
    exact hdistinct.sublist ((List.filter_sublist.trans List.filter_sublist).map _)
  -- the log in the window and the admissions in it are the same list, up to order and without
  -- those that charge nothing here
  have hperm : (kept.map (entry l.name)).Perm
      (keys.log.value.entries.filter fun e => u - l.windowMs < e.score) := by
    refine (List.perm_ext_iff_of_nodup hnodup
      ((List.Nodup.of_map _ keys.log.value.nodup).filter _)).mpr fun e => ?_
    simp only [List.mem_map, List.mem_filter, decide_eq_true_eq, hmem]
    constructor
    · rintro ⟨a, ⟨ha, hwin, hpos⟩, rfl⟩
      exact ⟨(h.recorded _ (by simp only [entry]; omega)).mpr ⟨a, ha, hpos, rfl⟩, hwin⟩
    · rintro ⟨he, hwin⟩
      obtain ⟨a, ha, hpos, rfl⟩ := (h.recorded e (by omega)).mp he
      exact ⟨a, ⟨ha, hwin, hpos⟩, rfl⟩
  calc sumAfter (u - l.windowMs) keys.log.value.entries
      = ((kept.map (entry l.name)).map fun e => memberCost e.member).sum :=
        ((hperm.map fun e : Scored (Member ι) => memberCost e.member).sum_eq).symm
    _ = (kept.map fun a => (a.cost l.name : ℤ)).sum := by rw [List.map_map]; rfl
    _ = WindowService.usage log l.plain u := sum_filter_ne_zero _

/-- A new admission. -/
theorem Mirrors.admitted (h : Mirrors log l time keys) {i : ι} {cost : κ → ℕ}
    (hfresh : ∀ a ∈ log, a.identifier ≠ i) :
    Mirrors (⟨i, time, cost⟩ :: log) l time ((Call.acquire i cost).onLimit true time l keys).2 := by
  have hevicted := h.evict (l.windowMs * 2)
  have hnone : (RateLimiter.evict time (time - l.windowMs) (l.windowMs * 2) keys).2.log.value.zscore
      ⟨cost l.name, i⟩ = none :=
    SortedSet.zscore_eq_none.mpr fun e he hm =>
      hevicted.unrecorded hfresh e he (congrArg Member.identifier hm)
  have hmem := fun e => mem_log_recordLimit i time time
    (RateLimiter.evict time (time - l.windowMs) (l.windowMs * 2) keys).1
    ⟨l.name, l.limit, l.windowMs, cost l.name⟩
    (RateLimiter.evict time (time - l.windowMs) (l.windowMs * 2) keys).2 l.window_pos (e := e)
  simp only [hnone, true_and] at hmem
  constructor
  · intro e hwin
    simp only [Call.onLimit, if_true, hmem, hevicted.recorded e hwin, List.mem_cons,
      exists_eq_or_imp]
    rw [or_comm]
    exact or_congr_left (and_congr_right fun _ => eq_comm)
  · intro e he
    simp only [Call.onLimit, if_true] at he
    rcases (hmem e).mp he with he | ⟨-, rfl⟩
    · obtain ⟨a, ha, hi⟩ := hevicted.known e he
      exact ⟨a, List.mem_cons_of_mem _ ha, hi⟩
    · exact ⟨_, List.mem_cons_self, rfl⟩

/-- A request that is sent again is found recorded, and only its keys are touched. -/
theorem Mirrors.again (h : Mirrors log l time keys) {a : Admission κ ι} {cost : κ → ℕ}
    (ha : a ∈ log)
    (hcovers : 0 < cost l.name →
      a.cost l.name = cost l.name ∧ time - l.windowMs < a.admittedAt) :
    Mirrors log l time ((Call.acquire a.identifier cost).onLimit true time l keys).2 := by
  have hevicted := h.evict (l.windowMs * 2)
  have hmem : ∀ e, e ∈ ((Call.acquire a.identifier cost).onLimit true time l
      keys).2.log.value.entries ↔
      e ∈ (RateLimiter.evict time (time - l.windowMs) (l.windowMs * 2)
        keys).2.log.value.entries := by
    intro e
    simp only [Call.onLimit, if_true]
    rw [mem_log_recordLimit _ _ _ _ ⟨l.name, l.limit, l.windowMs, cost l.name⟩ _ l.window_pos]
    refine or_iff_left ?_
    rintro ⟨hpos, hnone, -⟩
    obtain ⟨hcost, hwin⟩ := hcovers hpos
    have hrecorded := (hevicted.recorded (entry l.name a) hwin).mpr ⟨a, ha, hcost ▸ hpos, rfl⟩
    have hscore := SortedSet.zscore_of_mem hrecorded
    simp only [entry, hcost] at hscore
    rw [hnone] at hscore
    cases hscore
  exact hevicted.of_alike (fun e _ => hmem e) fun e he => (hmem e).mp he

/-- An adjust of a recorded request. -/
theorem Mirrors.adjust [DecidableEq ι] (h : Mirrors log l time keys)
    (hdistinct : (log.map Admission.identifier).Nodup) {a : Admission κ ι} (ha : a ∈ log)
    {change : κ → Option (ℕ × ℕ)} {oldCost newCost : ℕ} {admitted : Bool}
    (hchange : change l.name = some (oldCost, newCost))
    (hcosts : time - l.windowMs < a.admittedAt →
      oldCost = a.cost l.name ∨ newCost = a.cost l.name) :
    Mirrors (log.map (Admission.adjust a.identifier change)) l time
      ((Call.adjust a.identifier a.admittedAt change).onLimit admitted time l keys).2 := by
  have hmem := fun e => mem_log_adjustLimit a.identifier time time a.admittedAt
    ⟨l.name, l.windowMs, oldCost, newCost⟩ keys l.window_pos (e := e)
  -- identifiers are not used again, so the adjustment is of this admission alone
  have honly : ∀ b ∈ log, b.identifier = a.identifier → b = a := fun b hb heq =>
    List.inj_on_of_nodup_map hdistinct hb ha heq
  have hnew : (a.adjust a.identifier change).cost l.name = newCost := by
    rw [adjust_of_eq rfl]
    simp only [recost, hchange, Option.map_some, Option.getD_some]
  constructor
  · intro e hwin
    simp only [Call.onLimit, hchange, Option.getD_some, hmem, List.mem_map,
      exists_exists_and_eq_and]
    by_cases hi : e.member.identifier = a.identifier
    · -- the request itself is recorded under its new cost only
      have hright : (∃ b ∈ log, 0 < (b.adjust a.identifier change).cost l.name ∧
          entry l.name (b.adjust a.identifier change) = e) ↔
          0 < newCost ∧ e = ⟨⟨newCost, a.identifier⟩, a.admittedAt⟩ := by
        have hentry : entry l.name (a.adjust a.identifier change) =
            ⟨⟨newCost, a.identifier⟩, a.admittedAt⟩ := by
          rw [entry, hnew, identifier_adjust, admittedAt_adjust]
        constructor
        · rintro ⟨b, hb, hpos, rfl⟩
          obtain rfl := honly b hb ((identifier_adjust (a := b)).symm.trans hi)
          exact ⟨hnew ▸ hpos, hentry⟩
        · rintro ⟨hpos, rfl⟩
          exact ⟨a, ha, hnew.symm ▸ hpos, hentry⟩
      rw [hright]
      constructor
      · rintro (⟨hpos, -, rfl⟩ | ⟨hnotNew, hnotOld, he, -⟩)
        · exact ⟨hpos, rfl⟩
        · obtain ⟨b, hb, hpos, rfl⟩ := (h.recorded e hwin).mp he
          obtain rfl := honly b hb hi
          simp only [entry] at hwin
          -- here the promise is needed: a stale old cost would leave the entry recorded beside the
          -- new one
          rcases hcosts hwin with rfl | rfl
          · exact absurd ⟨hpos, rfl⟩ hnotOld
          · exact absurd ⟨hpos, hwin, rfl⟩ hnotNew
      · rintro ⟨hpos, rfl⟩
        exact Or.inl ⟨hpos, hwin, rfl⟩
    -- entries of other requests are neither removed nor added
    · have hother : ∀ {cost : ℕ}, e.member ≠ ⟨cost, a.identifier⟩ := fun heq =>
        hi (congrArg Member.identifier heq)
      have hleft : (0 < newCost ∧ time - l.windowMs < a.admittedAt ∧
          e = ⟨⟨newCost, a.identifier⟩, a.admittedAt⟩ ∨
          ¬(0 < newCost ∧ time - l.windowMs < a.admittedAt ∧
            e.member = ⟨newCost, a.identifier⟩) ∧
          ¬(0 < oldCost ∧ e.member = ⟨oldCost, a.identifier⟩) ∧
          e ∈ keys.log.value.entries ∧ time - l.windowMs < e.score) ↔
          e ∈ keys.log.value.entries := by
        constructor
        · rintro (⟨-, -, rfl⟩ | ⟨-, -, he, -⟩)
          · exact absurd rfl hi
          · exact he
        · intro he
          exact Or.inr ⟨fun hn => hother hn.2.2, fun ho => hother ho.2, he, hwin⟩
      rw [hleft, h.recorded e hwin]
      refine exists_congr fun b => and_congr_right fun hb => ?_
      by_cases hb' : b.identifier = a.identifier
      · refine iff_of_false ?_ ?_
        · rintro ⟨-, rfl⟩
          exact hi hb'
        · rintro ⟨-, rfl⟩
          exact hi (identifier_adjust.trans hb')
      · rw [adjust_of_ne hb']
  · intro e he
    simp only [Call.onLimit, hchange, Option.getD_some] at he
    have hknown : ∃ b ∈ log, b.identifier = e.member.identifier := by
      rcases (hmem e).mp he with ⟨-, -, rfl⟩ | ⟨-, -, he, -⟩
      · exact ⟨a, ha, rfl⟩
      · exact h.known e he
    obtain ⟨b, hb, hi⟩ := hknown
    exact ⟨_, List.mem_map_of_mem hb, identifier_adjust.trans hi⟩

/-- An adjust of other limits. -/
theorem Mirrors.adjust_other [DecidableEq ι] (h : Mirrors log l time keys) (i : ι)
    {change : κ → Option (ℕ × ℕ)} (hchange : change l.name = none) :
    Mirrors (log.map (Admission.adjust i change)) l time keys := by
  have hentry : ∀ a : Admission κ ι, entry l.name (a.adjust i change) = entry l.name a := by
    intro a
    unfold Admission.adjust
    split
    · simp only [entry, recost, hchange, Option.map_none, Option.getD_none]
    · rfl
  have hcost : ∀ a : Admission κ ι, (a.adjust i change).cost l.name = a.cost l.name := fun a =>
    congrArg (fun e => e.member.cost) (hentry a)
  constructor
  · intro e hwin
    rw [h.recorded e hwin]
    simp only [List.mem_map, exists_exists_and_eq_and, hentry, hcost]
  · intro e he
    obtain ⟨a, ha, hi⟩ := h.known e he
    exact ⟨_, List.mem_map_of_mem ha, identifier_adjust.trans hi⟩

end Mirrors

/-! ## All limits -/

variable [DecidableEq κ] {cfg : Config κ}

/-- The server keeps what the service needs. -/
structure Refines (cfg : Config κ) (s : Server κ ι) (t : State κ ι) : Prop where
  time : t.time = s.time
  consistent : ∀ name, Consistent (s.store name)
  timely : ∀ l ∈ cfg.limits, Timely l s.time (s.store l.name)
  mirrors : ∀ l ∈ cfg.limits, Mirrors t.log l s.time (s.store l.name)

/-- What `log_wellFormed` says of the service. -/
def WellFormed (t : State κ ι) : Prop :=
  (∀ a ∈ t.log, a.admittedAt ≤ t.time) ∧ (t.log.map Admission.identifier).Nodup

section Refines

variable {s : Server κ ι} {t : State κ ι}

omit [DecidableEq κ] in
/-- Room is room on both sides. -/
theorem Refines.fits_iff (h : Refines cfg s t) (hwf : WellFormed t) (cost : κ → ℕ) {d : ℤ}
    (hd : 0 ≤ d) : (∀ l ∈ cfg.limits, HasRoom cost (s.time + d) s.store l) ↔
      WindowService.Fits cfg.plain t.log cost (t.time + d) := by
  unfold WindowService.Fits Config.plain
  rw [List.forall_mem_map]
  refine forall₂_congr fun l hl => forall_congr' fun _ => ?_
  have husage := (h.mirrors l hl).usage (h.time ▸ hwf.1) hwf.2 (u := s.time + d) (by omega)
  rw [husage, h.time]
  rfl

/-- **After a call** the server keeps what the service needs, if each limit by itself does, and the
figures of the reply are those of the service. -/
theorem Refines.call (h : Refines cfg s t) (c : Call κ ι) (t' : State κ ι)
    (htime : t'.time = t.time) (hwf : WellFormed t')
    (hpast : PastAdjust (.call s.time c (exec cfg c s.time s.store).1))
    (htouched : ∀ l ∈ c.touched cfg, Mirrors t'.log l s.time
      (c.onLimit (exec cfg c s.time s.store).1.admitted s.time l (s.store l.name)).2)
    (hother : ∀ l ∈ cfg.limits, l ∉ c.touched cfg →
      Mirrors t'.log l s.time (s.store l.name)) :
    Refines cfg { s with store := (exec cfg c s.time s.store).2 } t' ∧
      (exec cfg c s.time s.store).1.figures = t'.figures ((c.touched cfg).map Limit.plain) := by
  refine ⟨⟨htime.trans h.time, consistent_step h.consistent (.call s c),
    timely_step h.timely hpast (.call s c), fun l hl => ?_⟩, ?_⟩
  -- a limit the call touches, and one it does not
  · by_cases hmem : l ∈ c.touched cfg
    · simp only [exec_touched _ _ _ _ hmem]
      exact htouched l hmem
    · have huntouched : ∀ l' ∈ c.touched cfg, l'.name ≠ l.name := fun l' hl' heq =>
        hmem (List.inj_on_of_nodup_map cfg.nodup (touched_subset c hl') hl heq ▸ hl')
      simp only [exec_untouched _ _ _ _ huntouched]
      exact hother l hl hmem
  · rw [figures_eq, State.figures, List.map_map]
    refine List.map_congr_left fun l hl => ?_
    have hnow : ∀ a ∈ t'.log, a.admittedAt ≤ s.time := by
      rw [← h.time, ← htime]
      exact hwf.1
    rw [(onLimit_accounted (h.consistent l.name)).2,
      ← sumAfter_of_forall fun e he => score_of_mem_onLimit he,
      (htouched l hl).usage hnow hwf.2 le_rfl, ← h.time, ← htime]
    rfl

variable [DecidableEq ι]

/-- A request nobody made before. -/
theorem Refines.acquire_new (h : Refines cfg s t) (hwf : WellFormed t) {i : ι} {cost : κ → ℕ}
    (hcost : ∀ l ∈ cfg.limits, cost l.name ≤ l.limit) (hfresh : ∀ a ∈ t.log, a.identifier ≠ i) :
    ∃ t', (service cfg.plain).Path t
        (observe (.call s.time (.acquire i cost)
          (exec cfg (.acquire i cost) s.time s.store).1)).toList t' ∧
      Refines cfg { s with store := (exec cfg (.acquire i cost) s.time s.store).2 } t' := by
  have hnew : ∀ l ∈ cfg.limits, Unrecorded i (s.store l.name) := fun l hl =>
    (h.mirrors l hl).unrecorded hfresh
  have hwait := fun {d : ℤ} (hd : 0 ≤ d) =>
    (retryAfter_le_iff h.consistent hcost hnew hd).trans (h.fits_iff hwf cost hd)
  have hdenied :
      (rateAcquire i s.time s.time (acquireArgs cfg cost) s.store).1.success = false ↔
        0 < (rateAcquire i s.time s.time (acquireArgs cfg cost) s.store).1.retryAfter :=
    success_eq_false_iff
  have hreply : (exec cfg (.acquire i cost) s.time s.store).1 =
      .acquire (rateAcquire i s.time s.time (acquireArgs cfg cost) s.store).1 := rfl
  have hcall := h.call (.acquire i cost)
  rw [hreply] at hcall ⊢
  set reply := (rateAcquire i s.time s.time (acquireArgs cfg cost) s.store).1
  -- admitted: the service admits too. Denied: the wait is the least after which it would.
  cases hsuccess : reply.success with
  | true =>
    have hwf' : WellFormed (t.admitted i cost) := by
      refine ⟨List.forall_mem_cons.mpr ⟨le_rfl, hwf.1⟩, List.nodup_cons.mpr ⟨fun hmem => ?_, hwf.2⟩⟩
      obtain ⟨a, ha, heq⟩ := List.mem_map.mp hmem
      exact hfresh a ha heq
    have hfits : WindowService.Fits cfg.plain t.log cost t.time := by
      have hzero := not_lt.mp fun hpos => by rw [hdenied.mpr hpos] at hsuccess; cases hsuccess
      simpa using (hwait le_rfl).mp hzero
    have hadmitted : Reply.admitted (.acquire reply) = true := hsuccess
    obtain ⟨hrefines, hfigures⟩ := hcall (t.admitted i cost) rfl hwf' trivial
      (fun l hl => by
        rw [hadmitted, State.admitted, h.time]
        exact (h.mirrors l hl).admitted hfresh)
      fun l hl hnot => absurd hl hnot
    have hused : reply.used = (t.admitted i cost).figures cfg.plain := hfigures
    have hstep := WindowService.Step.admitted t i cost hfresh hfits
    rw [← hused, h.time] at hstep
    refine ⟨_, ?_, hrefines⟩
    simp only [observe, hsuccess, if_true]
    exact .single hstep
  | false =>
    have hadmitted : Reply.admitted (.acquire reply) = false := hsuccess
    obtain ⟨hrefines, hfigures⟩ := hcall t rfl hwf trivial
      (fun l hl => by
        rw [hadmitted]
        exact (h.mirrors l hl).evict _)
      fun l hl hnot => absurd hl hnot
    have hused : reply.used = t.figures cfg.plain := hfigures
    have hpos := hdenied.mp hsuccess
    have hleast : IsLeast {d | 0 < d ∧ WindowService.Fits cfg.plain t.log cost (t.time + d)}
        reply.retryAfter :=
      ⟨⟨hpos, (hwait hpos.le).mp le_rfl⟩, fun d hd => (hwait hd.1.le).mpr hd.2⟩
    have hnot : ¬ WindowService.Fits cfg.plain t.log cost t.time := fun hfits => by
      have hzero := (hwait le_rfl).mpr (by simpa using hfits)
      omega
    have hstep := WindowService.Step.denied t i cost reply.retryAfter hnot hleast
    rw [← hused, h.time] at hstep
    refine ⟨_, ?_, hrefines⟩
    simp only [observe, hsuccess, Bool.false_eq_true, if_false]
    exact .single hstep

/-- A request that is sent again while it is in all of its windows. -/
theorem Refines.acquire_again (h : Refines cfg s t) (hwf : WellFormed t) {a : Admission κ ι}
    {cost : κ → ℕ} (ha : a ∈ t.log) (hcovers : a.Covers cfg.plain cost t.time) :
    ∃ t', (service cfg.plain).Path t
        (observe (.call s.time (.acquire a.identifier cost)
          (exec cfg (.acquire a.identifier cost) s.time s.store).1)).toList t' ∧
      Refines cfg { s with store := (exec cfg (.acquire a.identifier cost) s.time s.store).2 }
        t' := by
  have hlimit : ∀ l ∈ cfg.limits, 0 < cost l.name →
      a.cost l.name = cost l.name ∧ s.time - l.windowMs < a.admittedAt := fun l hl hpos =>
    h.time ▸ hcovers l.plain (List.mem_map_of_mem hl) hpos
  -- the request is recorded in every limit it charges, so it is admitted without a further charge
  have hadmitted : (exec cfg (.acquire a.identifier cost) s.time s.store).1.admitted = true := by
    refine admitted_iff_fits.mpr (fits_of_recorded ?_)
    unfold acquireArgs
    rw [List.forall_mem_map]
    intro l hl hpos
    obtain ⟨hcost, hwin⟩ := hlimit l hl hpos
    have hmem := (((h.mirrors l hl).evict (l.windowMs * 2)).recorded (entry l.name a) hwin).mpr
      ⟨a, ha, hcost ▸ hpos, rfl⟩
    have hscore := SortedSet.zscore_of_mem hmem
    simp only [entry, hcost] at hscore
    exact ⟨hpos, Option.isSome_iff_exists.mpr ⟨_, hscore⟩⟩
  have hreply : (exec cfg (.acquire a.identifier cost) s.time s.store).1 =
      .acquire (rateAcquire a.identifier s.time s.time (acquireArgs cfg cost) s.store).1 := rfl
  have hcall := h.call (.acquire a.identifier cost) t rfl hwf trivial
    (fun l hl => by
      rw [hadmitted]
      exact (h.mirrors l hl).again ha (hlimit l hl))
    fun l hl hnot => absurd hl hnot
  rw [hreply] at hcall hadmitted ⊢
  set reply := (rateAcquire a.identifier s.time s.time (acquireArgs cfg cost) s.store).1
  have hsuccess : reply.success = true := hadmitted
  have hused : reply.used = t.figures cfg.plain := hcall.2
  have hstep := WindowService.Step.again t a.identifier cost a ha rfl hcovers
  rw [← hused, h.time] at hstep
  refine ⟨_, ?_, hcall.1⟩
  simp only [observe, hsuccess, if_true]
  exact .single hstep

/-- An adjust of an admitted request. -/
theorem Refines.adjust (h : Refines cfg s t) (hwf : WellFormed t)
    {a : Admission κ ι} (ha : a ∈ t.log) {change : κ → Option (ℕ × ℕ)}
    (hcosts : ∀ l ∈ cfg.limits, ∀ oldCost newCost, change l.name = some (oldCost, newCost) →
      s.time - l.windowMs < a.admittedAt → oldCost = a.cost l.name ∨ newCost = a.cost l.name) :
    ∃ t', (service cfg.plain).Path t
        (observe (.call s.time (.adjust a.identifier a.admittedAt change)
          (exec cfg (.adjust a.identifier a.admittedAt change) s.time s.store).1)).toList t' ∧
      Refines cfg
        { s with store := (exec cfg (.adjust a.identifier a.admittedAt change) s.time s.store).2 }
        t' := by
  -- neither identifiers nor times change, only costs
  have hwf' : WellFormed (t.adjust a.identifier change) := by
    refine ⟨fun b hb => ?_, ?_⟩
    · obtain ⟨b, hb', rfl⟩ := List.mem_map.mp hb
      rw [admittedAt_adjust]
      exact hwf.1 b hb'
    · have hsame : Admission.identifier ∘ Admission.adjust a.identifier change =
          Admission.identifier := funext fun b => identifier_adjust
      simp only [State.adjust, List.map_map, hsame]
      exact hwf.2
  obtain ⟨hrefines, hfigures⟩ := h.call (.adjust a.identifier a.admittedAt change)
    (t.adjust a.identifier change) rfl hwf' (h.time ▸ hwf.1 a ha)
    (fun l hl => by
      obtain ⟨hl', hsome⟩ := mem_changedLimits.mp hl
      obtain ⟨⟨oldCost, newCost⟩, hchange⟩ := Option.isSome_iff_exists.mp hsome
      exact (h.mirrors l hl').adjust hwf.2 ha hchange (hcosts l hl' _ _ hchange))
    (fun l hl hnot => by
      refine (h.mirrors l hl).adjust_other _ (Option.not_isSome_iff_eq_none.mp fun hsome => ?_)
      exact hnot (mem_changedLimits.mpr ⟨hl, hsome⟩))
  have hchanged : changed cfg.plain change = (changedLimits cfg change).map Limit.plain := by
    rw [changed, Config.plain, List.filter_map]
    rfl
  have hstep : WindowService.Step cfg.plain t _ _ :=
    .adjusted t a.identifier a.admittedAt change
  have hused : (exec cfg (.adjust a.identifier a.admittedAt change) s.time s.store).1.figures =
      (t.adjust a.identifier change).figures ((changedLimits cfg change).map Limit.plain) :=
    hfigures
  rw [hchanged, ← hused, h.time] at hstep
  exact ⟨_, .single hstep, hrefines⟩

/-- A status is one of the service: both evict and answer what is in the window. -/
theorem Refines.status (h : Refines cfg s t) (hwf : WellFormed t) :
    ∃ t', (service cfg.plain).Path t
        (observe (.call s.time .status (exec cfg .status s.time s.store).1)).toList t' ∧
      Refines cfg { s with store := (exec cfg .status s.time s.store).2 } t' := by
  obtain ⟨hrefines, hfigures⟩ := h.call .status t rfl hwf trivial
    (fun l hl => (h.mirrors l hl).evict _) fun l hl hnot => absurd hl hnot
  have hstep : WindowService.Step cfg.plain t _ _ := .inspected t
  have hused : (exec cfg .status s.time s.store).1.figures = t.figures cfg.plain := hfigures
  rw [← hused, h.time] at hstep
  exact ⟨_, .single hstep, hrefines⟩

/-- **One step.** -/
theorem Refines.step {tr : List (Event κ ι)} {e : Event κ ι} {s' : Server κ ι}
    (h : Refines cfg s t) (hwf : WellFormed t) (hlog : t.log = admissions (tr.filterMap observe))
    (hok : Promised cfg tr e) (hs : Step cfg s e s') :
    ∃ t', (service cfg.plain).Path t (observe e).toList t' ∧ Refines cfg s' t' := by
  cases hs with
  | call c =>
    cases c with
    | acquire i cost =>
      obtain ⟨hcost, hwhich⟩ := hok.1 _ rfl
      rw [← hlog] at hwhich
      rcases hwhich with hfresh | ⟨a, ha, rfl, hcovers⟩
      · exact h.acquire_new hwf (fun l hl => hcost l.plain (List.mem_map_of_mem hl)) hfresh
      · exact h.acquire_again hwf ha (h.time ▸ hcovers)
    | adjust i acquiredAt change =>
      obtain ⟨a, ha, rfl, rfl, hcosts⟩ := hok.1 _ rfl
      exact h.adjust hwf (hlog ▸ ha) fun l hl => hcosts l.plain (List.mem_map_of_mem hl)
    | status => exact h.status hwf
  | wait time hle =>
    refine ⟨t.advance time, .single (.waited t time (h.time ▸ hle)), rfl, h.consistent, ?_, ?_⟩
    · exact fun l hl => (h.timely l hl).mono hle
    · exact fun l hl => (h.mirrors l hl).mono hle
  -- an expiry is not seen by the service: the window has passed by then
  | expire name kind =>
    have hs : Step cfg s (.expire name kind) _ := .expire s name kind
    have hpast : PastAdjust (.expire name kind : Event κ ι) := trivial
    refine ⟨t, .refl, h.time, consistent_step h.consistent hs, timely_step h.timely hpast hs,
      fun l hl => ?_⟩
    by_cases hname : l.name = name
    · subst hname
      simp only [Function.update_self]
      exact (h.mirrors l hl).expire (h.timely l hl) kind
    · simp only [Function.update_of_ne hname]
      exact h.mirrors l hl
  -- of a limit only the total may be lost, and the log is what is mirrored
  | lose name kind =>
    have hkind : kind = .total := by
      cases kind with
      | log => exact absurd rfl (hok.2 name)
      | total => rfl
    subst hkind
    have hs : Step cfg s (.lose name .total) _ := .lose s name .total
    have hpast : PastAdjust (.lose name .total : Event κ ι) := trivial
    refine ⟨t, .refl, h.time, consistent_step h.consistent hs, timely_step h.timely hpast hs,
      fun l hl => ?_⟩
    by_cases hname : l.name = name
    · subst hname
      simp only [Function.update_self]
      exact (h.mirrors l hl).of_alike (alike_of_log_eq rfl) fun _ he => he
    · simp only [Function.update_of_ne hname]
      exact h.mirrors l hl

end Refines

/-! ## Runs -/

variable [DecidableEq ι]

/-- The scripts are simulated by the service. -/
theorem simulation : System.Simulation (system cfg) (service cfg.plain) (observe (ι := ι))
    (Promised cfg) (Refines cfg) where
  start s hs := by
    refine ⟨⟨s.time, []⟩, rfl, rfl, fun name => ?_, fun l _ => ?_, fun l _ => ?_⟩
    · rw [hs]
      exact consistent_initial
    · rw [hs]
      exact timely_initial
    · rw [hs]
      exact mirrors_initial.mpr fun a ha => absurd ha List.not_mem_nil
  step _ _ _ _ _ _ ht hrel hok hstep := hrel.step (log_wellFormed ht) (log_of_run ht) hok hstep

/-- **Refinement.** In every run in which clients keep to what is promised and no log is lost before
its deadline, what clients see is a run of the sliding-window service: who is admitted, how long the
others have to wait and every figure. At its end each log holds, inside its window, what the service
has charged to the limit. -/
theorem refines_windowService {tr : List (Event κ ι)} {s : Server κ ι}
    (h : (system cfg).Run tr s) (hok : Guarded (Promised cfg) tr) :
    ∃ t, (service cfg.plain).Run (tr.filterMap observe) t ∧ t.time = s.time ∧
      ∀ l ∈ cfg.limits, ∀ e, s.time - l.windowMs < e.score →
        (e ∈ (s.store l.name).log.value.entries ↔
          ∃ a ∈ t.log, 0 < a.cost l.name ∧ entry l.name a = e) := by
  obtain ⟨t, hrun, hrel⟩ := simulation.run h hok
  exact ⟨t, hrun, hrel.time, fun l hl => (hrel.mirrors l hl).recorded⟩

/-- Four units are admitted and eight refused; the four are lowered to two, the total is lost and
the figure rebuilt. -/
theorem refines_windowService_lowered : ∃ t : State ℕ ℕ,
    (service tenPerSecond.plain).Run
      [.inspect 1500 [2], .adjust 1500 7 1000 (fun _ => some (4, 2)) [2], .wait 1500,
        .acquire 1000 8 (fun _ => 8) (some 1000) [4], .acquire 1000 7 (fun _ => 4) none [4]] t ∧
      t.time = 1500 := by
  have hstart : (system tenPerSecond).Run [] (⟨1000, fun _ => LimitKeys.initial⟩ : Server ℕ ℕ) :=
    .start rfl
  have hfirst := (hstart.step (.call _ (.acquire 7 fun _ => 4))).step
    (.call _ (.acquire 8 fun _ => 8))
  have hsecond := (hfirst.step (.wait _ 1500 (by decide))).step
    (.call _ (.adjust 7 1000 fun _ => some (4, 2)))
  have hrun := (hsecond.step (.lose _ 0 .total)).step (.call _ .status)
  have hseven : Proper tenPerSecond.plain [] (.acquire 1000 7 (fun _ => 4) none [4]) :=
    ⟨by decide, Or.inl (by decide)⟩
  have height : Proper tenPerSecond.plain [.acquire 1000 7 (fun _ => 4) none [4]]
      (.acquire 1000 8 (fun _ => 8) (some 1000) [4]) := ⟨by decide, Or.inl (by simp [admissions])⟩
  have hadjust : Proper tenPerSecond.plain
      [.wait 1500, .acquire 1000 8 (fun _ => 8) (some 1000) [4],
        .acquire 1000 7 (fun _ => 4) none [4]]
      (.adjust 1500 7 1000 (fun _ => some (4, 2)) [2]) := by
    refine ⟨⟨7, 1000, fun _ => 4⟩, List.mem_cons_self, rfl, rfl, fun l _ oldCost newCost h _ => ?_⟩
    cases h
    exact Or.inl rfl
  obtain ⟨t, ht, htime, -⟩ := refines_windowService hrun
    ⟨promised_of_observed rfl trivial, promised_of_hidden rfl (by simp),
      promised_of_observed rfl hadjust, promised_of_observed rfl trivial,
      promised_of_observed rfl height, promised_of_observed rfl hseven, trivial⟩
  exact ⟨t, ht, htime⟩

/-- **Debt is what was raised.** Adjusts may take a window over its limit, but in every such run the
units recorded inside the window of a limit are at most the limit and what adjusts have raised the
requests in that window by. Each raise counts from the cost that was recorded before it, and no
lowering is counted back: lowered from ten to two and raised to eight again, a request has been
raised by six. -/
theorem recorded_le_limit_add_raised {tr : List (Event κ ι)} {s : Server κ ι}
    (h : (system cfg).Run tr s) (hok : Guarded (Promised cfg) tr) :
    ∀ l ∈ cfg.limits, sumAfter (s.time - l.windowMs) (s.store l.name).log.value.entries ≤
      l.limit + debt (tr.filterMap observe) l.plain s.time := by
  intro l hl
  obtain ⟨t, hrun, hrel⟩ := simulation.run h hok
  obtain ⟨hpast, hdistinct⟩ := log_wellFormed hrun
  rw [(hrel.mirrors l hl).usage (hrel.time ▸ hpast) hdistinct le_rfl, ← hrel.time]
  exact usage_le_bound_add_debt hrun (List.mem_map_of_mem hl)

/-- Four units are raised to fourteen, ten more than were admitted. -/
theorem recorded_le_limit_add_raised_fourteen : ∃ s : Server ℕ ℕ,
    sumAfter 0 (s.store 0).log.value.entries = 14 ∧
      sumAfter (s.time - 1000) (s.store 0).log.value.entries ≤ 10 + 10 := by
  have hstart : (system tenPerSecond).Run [] (⟨1000, fun _ => LimitKeys.initial⟩ : Server ℕ ℕ) :=
    .start rfl
  have hrun := (hstart.step (.call _ (.acquire 7 fun _ => 4))).step
    (.call _ (.adjust 7 1000 fun _ => some (4, 14)))
  have hseven : Proper tenPerSecond.plain [] (.acquire 1000 7 (fun _ => 4) none [4]) :=
    ⟨by decide, Or.inl (by decide)⟩
  have hadjust : Proper tenPerSecond.plain [.acquire 1000 7 (fun _ => 4) none [4]]
      (.adjust 1000 7 1000 (fun _ => some (4, 14)) [14]) := by
    refine ⟨⟨7, 1000, fun _ => 4⟩, List.mem_cons_self, rfl, rfl, fun l _ oldCost newCost h _ => ?_⟩
    cases h
    exact Or.inl rfl
  have hbound := recorded_le_limit_add_raised hrun
    ⟨promised_of_observed rfl hadjust, promised_of_observed rfl hseven, trivial⟩ tenUnits
    List.mem_cons_self
  exact ⟨_, by decide, hbound⟩

end RedisSemaphore.RateLimiter
