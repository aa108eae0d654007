import RedisSemaphore.RateLimiter.Accounting
import RedisSemaphore.RateLimiter.Admission
import RedisSemaphore.SlidingWindow

/-!
# The window with synchronised clients

With `TimeSource.CLIENT` the scripts evict and score with the clocks of their callers, while keys
expire on the server's. A fast client evicts what is still in the window for the others, a slow one
scores its request too early. If no clock is more than `skew` away from the server's when its script
runs, which covers the time a script is on its way, then what was admitted within the last
`window - 2 * skew` is still in the log whoever looks (`SkewTracks`), so the bound of the window
holds for that shorter window.
-/

namespace RedisSemaphore.RateLimiter

open Redis KeyedLoop Transition SlidingWindow

variable {κ ι : Type*}

/-! ## Scripts on another clock -/

section Exec

variable [LinearOrder (Member ι)] [DecidableEq κ]

/-- Execute one script call with the time of its caller. -/
def execAt (cfg : Config κ) (call : Call κ ι) (nowMs time : ℤ) (store : κ → LimitKeys ι) :
    Reply × (κ → LimitKeys ι) :=
  match call with
  | .acquire identifier cost =>
    let (reply, store) := rateAcquire identifier nowMs time (acquireArgs cfg cost) store
    (.acquire reply, store)
  | .adjust identifier acquiredAt change =>
    let (used, store) := rateAdjust identifier nowMs time acquiredAt (adjustArgs cfg change) store
    (.used used, store)
  | .status =>
    let (used, store) := rateStatus nowMs time cfg.limits store
    (.used used, store)

/-- `TimeSource.SERVER` is the case in which the clocks are one. -/
theorem exec_eq_execAt (cfg : Config κ) (call : Call κ ι) (time : ℤ) (store : κ → LimitKeys ι) :
    exec cfg call time store = execAt cfg call time time store := by
  cases call <;> rfl

omit [DecidableEq κ] in
/-- What a call does to one limit it touches. -/
def Call.onLimitAt (call : Call κ ι) (admitted : Bool) (nowMs time : ℤ) (l : Limit κ)
    (keys : LimitKeys ι) : ℤ × LimitKeys ι :=
  match call with
  | .acquire identifier cost =>
    let (total, keys) := evict time (nowMs - l.windowMs) (l.windowMs * 2) keys
    if admitted then
      recordLimit identifier nowMs time ⟨l.name, l.limit, l.windowMs, cost l.name⟩ total keys
    else (total, keys)
  | .adjust identifier acquiredAt change =>
    adjustLimit identifier nowMs time acquiredAt ⟨l.name, l.windowMs,
      ((change l.name).getD (0, 0)).1, ((change l.name).getD (0, 0)).2⟩ keys
  | .status => evict time (nowMs - l.windowMs) (l.windowMs * 2) keys

variable {cfg : Config κ} {nowMs time : ℤ} {store : κ → LimitKeys ι}

variable (cfg nowMs time store) in
/-- A call on any clock is one loop over the limits it touches. -/
theorem execAt_eq_loop (call : Call κ ι) :
    (execAt cfg call nowMs time store).2 =
      (loop Limit.name (call.onLimitAt (execAt cfg call nowMs time store).1.admitted nowMs time)
        (call.touched cfg) store).2 := by
  cases call with
  | status => rfl
  | adjust identifier acquiredAt change =>
    simp only [execAt, rateAdjust, adjustArgs, loop_map, Call.touched]
    rfl
  | acquire identifier cost =>
    have hcheck := checkLimits_eq_loop time nowMs store identifier (acquireArgs cfg cost)
    obtain ⟨hused, hstore⟩ := Prod.ext_iff.mp hcheck
    simp only at hused hstore
    simp only [execAt, rateAcquire]
    split
    · simp only [Reply.admitted, Call.touched]
      rw [hstore, acquireArgs, loop_map]
      rfl
    · simp only [Reply.admitted, Call.touched]
      have hrecord := loop_zip store (g := recordLimit identifier nowMs time)
        (f := fun a => evict time (nowMs - a.windowMs) (a.windowMs * 2))
        (acquireArgs_nodup cfg cost)
      rw [hused, hstore, hrecord, acquireArgs, loop_map]
      rfl

variable (cfg nowMs time store) in
/-- What a call does to a limit it touches depends on that limit alone. -/
theorem execAt_touched (call : Call κ ι) {l : Limit κ} (hl : l ∈ call.touched cfg) :
    (execAt cfg call nowMs time store).2 l.name =
      (call.onLimitAt (execAt cfg call nowMs time store).1.admitted nowMs time l
        (store l.name)).2 := by
  rw [execAt_eq_loop]
  exact loop_mem (touched_nodup cfg call) hl

variable (cfg nowMs time store) in
/-- A limit that a call does not touch stays as it is. -/
theorem execAt_untouched (call : Call κ ι) {name : κ}
    (h : ∀ l ∈ call.touched cfg, l.name ≠ name) :
    (execAt cfg call nowMs time store).2 name = store name := by
  rw [execAt_eq_loop]
  exact loop_notMem h

/-- An admitted acquire fits. -/
theorem fits_of_admittedAt {identifier : ι} {cost : κ → ℕ}
    (h : (execAt cfg (.acquire identifier cost) nowMs time store).1.admitted = true) :
    Fits identifier
      (fun a => evict time (nowMs - a.windowMs) (a.windowMs * 2) (store a.name)) false
      (acquireArgs cfg cost) := by
  have hfits := retryAfter_foldl_le identifier nowMs time
    (fun a => evict time (nowMs - a.windowMs) (a.windowMs * 2) (store a.name))
    ⟨store, [], 0, false⟩ (acquireArgs_nodup cfg cost) fun a _ => rfl
  refine (hfits.mp ?_).2
  by_contra hpos
  have hpos : 0 < (checkLimits identifier nowMs time (acquireArgs cfg cost) store).retryAfter :=
    not_le.mp hpos
  simp [execAt, rateAcquire, if_pos hpos, Reply.admitted] at h

omit [DecidableEq κ] in
/-- A script leaves the accounts of a limit settled, whatever the clock of its caller shows. -/
theorem onLimitAt_accounted {call : Call κ ι} {admitted : Bool} {l : Limit κ}
    {keys : LimitKeys ι} (h : Consistent keys) :
    Accounted (call.onLimitAt admitted nowMs time l keys).2 ∧
      (call.onLimitAt admitted nowMs time l keys).1
        = sumCosts (call.onLimitAt admitted nowMs time l keys).2.log.value.entries := by
  have hevict := evict_accounted time (nowMs - l.windowMs) (l.windowMs * 2) h
  cases call with
  | acquire identifier cost =>
    cases admitted with
    | false => exact hevict
    | true => exact recordLimit_accounted l.window_pos hevict.1 hevict.2
  | adjust identifier acquiredAt change => exact adjustLimit_accounted l.window_pos h
  | status => exact hevict

end Exec

/-! ## Runs -/

/-- What happens to a limiter with `TimeSource.CLIENT`: a script runs at `time` on the server and at
`nowMs` for its caller, the clock advances, a key expires or a total is lost. -/
inductive SkewedEvent (κ ι : Type*)
  | call (time nowMs : ℤ) (call : Call κ ι) (reply : Reply)
  | wait (time : ℤ)
  | expire (name : κ) (kind : KeyKind)
  | loseTotal (name : κ)

/-- One step of clients whose clocks are within the skew when their scripts run. -/
inductive SkewedStep [LinearOrder (Member ι)] [DecidableEq κ] (skew : ℤ) (cfg : Config κ) :
    Server κ ι → SkewedEvent κ ι → Server κ ι → Prop
  | call (s : Server κ ι) (c : Call κ ι) (nowMs : ℤ) (hnow : |nowMs - s.time| ≤ skew) :
      SkewedStep skew cfg s (.call s.time nowMs c (execAt cfg c nowMs s.time s.store).1)
        { s with store := (execAt cfg c nowMs s.time s.store).2 }
  | wait (s : Server κ ι) (time : ℤ) (h : s.time ≤ time) :
      SkewedStep skew cfg s (.wait time) { s with time := time }
  | expire (s : Server κ ι) (name : κ) (kind : KeyKind) :
      SkewedStep skew cfg s (.expire name kind)
        { s with store := Function.update s.store name ((s.store name).expire kind s.time) }
  | loseTotal (s : Server κ ι) (name : κ) :
      SkewedStep skew cfg s (.loseTotal name)
        { s with store := Function.update s.store name ((s.store name).delete .total) }

/-- The runs of one limiter whose clients pass their own time. -/
def skewedSystem [LinearOrder (Member ι)] [DecidableEq κ] (skew : ℤ) (cfg : Config κ) :
    System (Server κ ι) (SkewedEvent κ ι) where
  start s := s.store = fun _ => LimitKeys.initial
  step := SkewedStep skew cfg

/-- What one admission was charged to a limit, when it ran and what its caller's clock showed. -/
structure StampedCharge (ι : Type*) where
  identifier : ι
  executedAt : ℤ
  stamp : ℤ
  cost : ℕ
  deriving DecidableEq

namespace StampedCharge

/-- The log element of a charge. -/
def entry (c : StampedCharge ι) : Scored (Member ι) := ⟨⟨c.cost, c.identifier⟩, c.stamp⟩

/-- The cost of a charge, in the arithmetic of the totals. -/
def weight (c : StampedCharge ι) : ℤ := c.cost

/-- An adjust replaces the cost of a charge that is in the window for its caller. -/
def replace [DecidableEq ι] (l : Limit κ) (nowMs : ℤ) (identifier : ι) (newCost : ℕ)
    (c : StampedCharge ι) : StampedCharge ι :=
  if c.identifier = identifier ∧ nowMs - l.windowMs < c.stamp then { c with cost := newCost } else c

/-- Costs are not negative. -/
theorem weight_nonneg (c : StampedCharge ι) : 0 ≤ c.weight := Int.natCast_nonneg c.cost

variable [DecidableEq ι] {l : Limit κ} {nowMs : ℤ} {identifier : ι} {newCost : ℕ}
  {c : StampedCharge ι}

/-- An adjustment keeps whose charge it is. -/
@[simp] theorem identifier_replace :
    (c.replace l nowMs identifier newCost).identifier = c.identifier := by
  unfold replace
  split <;> rfl

/-- It keeps when the charge was made. -/
@[simp] theorem executedAt_replace :
    (c.replace l nowMs identifier newCost).executedAt = c.executedAt := by
  unfold replace
  split <;> rfl

/-- It keeps the stamp: a charge leaves the window when the admitted one would have. -/
@[simp] theorem stamp_replace : (c.replace l nowMs identifier newCost).stamp = c.stamp := by
  unfold replace
  split <;> rfl

/-- The charges of others stay. -/
theorem replace_of_ne (h : c.identifier ≠ identifier) :
    c.replace l nowMs identifier newCost = c :=
  if_neg fun hc => h hc.1

end StampedCharge

/-- The charges to `l` of all admissions of a trace. -/
def stamped [DecidableEq ι] (l : Limit κ) : List (SkewedEvent κ ι) → List (StampedCharge ι)
  | [] => []
  | .call t nowMs (.acquire identifier cost) r :: tr =>
    if r.admitted then ⟨identifier, t, nowMs, cost l.name⟩ :: stamped l tr else stamped l tr
  | .call _ nowMs (.adjust identifier _ change) _ :: tr =>
    match change l.name with
    | some (_, newCost) => (stamped l tr).map (StampedCharge.replace l nowMs identifier newCost)
    | none => stamped l tr
  | .call _ _ .status _ :: tr => stamped l tr
  | .wait _ :: tr => stamped l tr
  | .expire _ _ :: tr => stamped l tr
  | .loseTotal _ :: tr => stamped l tr

/-- An identifier that was charged is not used again, and an adjust names a charged request by its
admission time and does not raise what is in the window for its caller. -/
def SkewedOk [DecidableEq ι] (cfg : Config κ) (tr : List (SkewedEvent κ ι)) :
    SkewedEvent κ ι → Prop
  | .call _ _ (.acquire identifier _) _ =>
    ∀ l ∈ cfg.limits, ∀ c ∈ stamped l tr, c.identifier ≠ identifier
  | .call _ nowMs (.adjust identifier acquiredAt change) _ =>
    ∀ l ∈ cfg.limits, ∀ oldCost newCost, change l.name = some (oldCost, newCost) →
      ∃ c ∈ stamped l tr, c.identifier = identifier ∧ c.stamp = acquiredAt ∧
        (nowMs - l.windowMs < acquiredAt → newCost ≤ c.cost)
  | _ => True

/-! ## The simulation -/

variable [LinearOrder (Member ι)]

/-- What ties the keys of a limit to the charges of the trace: what ran within the shorter window is
recorded, no score is more than a skew ahead, and the log's deadline is two windows past each score,
but for a skew. -/
structure SkewTracks [DecidableEq ι] (skew : ℤ) (l : Limit κ) (tr : List (SkewedEvent κ ι))
    (time : ℤ) (keys : LimitKeys ι) : Prop where
  recorded : ∀ c ∈ stamped l tr, 0 < c.cost → time - (l.windowMs - 2 * skew) < c.executedAt →
    c.entry ∈ keys.log.value.entries
  known : ∀ e ∈ keys.log.value.entries, ∃ c ∈ stamped l tr, c.identifier = e.member.identifier
  distinct : ((stamped l tr).map StampedCharge.identifier).Nodup
  past : ∀ c ∈ stamped l tr, c.executedAt ≤ time
  synced : ∀ c ∈ stamped l tr, |c.stamp - c.executedAt| ≤ skew
  ahead : ∀ e ∈ keys.log.value.entries, e.score ≤ time + skew
  covered : ∀ d, keys.log.deadline = some d →
    ∀ e ∈ keys.log.value.entries, e.score + l.windowMs * 2 ≤ d + skew

/-- The charges of a limit that ran in `(p - (window - 2 * skew), p]`. -/
def stampedIn [DecidableEq ι] (skew : ℤ) (l : Limit κ) (tr : List (SkewedEvent κ ι)) (p : ℤ) : ℤ :=
  windowSum StampedCharge.executedAt StampedCharge.weight (l.windowMs - 2 * skew) p (stamped l tr)

section Tracks

variable [DecidableEq ι] {skew : ℤ} {l : Limit κ} {tr : List (SkewedEvent κ ι)} {time nowMs : ℤ}
  {keys : LimitKeys ι}

/-- What ran within the shorter window is in the window of every caller. -/
theorem SkewTracks.in_window (h : SkewTracks skew l tr time keys) (hnow : |nowMs - time| ≤ skew)
    {c : StampedCharge ι} (hc : c ∈ stamped l tr)
    (hwin : time - (l.windowMs - 2 * skew) < c.executedAt) : nowMs - l.windowMs < c.stamp := by
  have hstamp := (abs_le.mp (h.synced c hc)).1
  have hahead := (abs_le.mp hnow).2
  omega

/-- The charges stay the same, the keys lose nothing that ran within the shorter window. -/
theorem SkewTracks.shrink (h : SkewTracks skew l tr time keys) {e : SkewedEvent κ ι} {time' : ℤ}
    {keys' : LimitKeys ι} (hsame : stamped l (e :: tr) = stamped l tr) (hle : time ≤ time')
    (hkept : ∀ c ∈ stamped l tr, 0 < c.cost → time' - (l.windowMs - 2 * skew) < c.executedAt →
      c.entry ∈ keys.log.value.entries → c.entry ∈ keys'.log.value.entries)
    (hsub : ∀ e ∈ keys'.log.value.entries, e ∈ keys.log.value.entries)
    (hdeadline : ∀ d, keys'.log.deadline = some d → keys.log.deadline = some d) :
    SkewTracks skew l (e :: tr) time' keys' where
  recorded c hc hpos hwin := by
    rw [hsame] at hc
    exact hkept c hc hpos hwin (h.recorded c hc hpos (by omega))
  known e he := by rw [hsame]; exact h.known e (hsub e he)
  distinct := by rw [hsame]; exact h.distinct
  past c hc := by rw [hsame] at hc; exact (h.past c hc).trans hle
  synced := by rw [hsame]; exact h.synced
  ahead e he := (h.ahead e (hsub e he)).trans (by omega)
  covered d hd e he := h.covered d (hdeadline d hd) e (hsub e he)

/-- Eviction on the clock of any caller. -/
theorem SkewTracks.evicted (h : SkewTracks skew l tr time keys) {e : SkewedEvent κ ι}
    (hsame : stamped l (e :: tr) = stamped l tr) (hnow : |nowMs - time| ≤ skew) :
    SkewTracks skew l (e :: tr) time
      (evict time (nowMs - l.windowMs) (l.windowMs * 2) keys).2 :=
  h.shrink hsame le_rfl
    (fun _ hc _ hwin hmem => mem_log_evict.mpr ⟨hmem, h.in_window hnow hc hwin⟩)
    (fun _ he => (mem_log_evict.mp he).1) fun _ hd => deadline_log_evict hd

/-- Keys that are not touched as time passes. -/
theorem SkewTracks.mono (h : SkewTracks skew l tr time keys) {e : SkewedEvent κ ι} {time' : ℤ}
    (hsame : stamped l (e :: tr) = stamped l tr) (hle : time ≤ time') :
    SkewTracks skew l (e :: tr) time' keys :=
  h.shrink hsame hle (fun _ _ _ _ hmem => hmem) (fun _ he => he) fun _ hd => hd

/-- A log that expires has outlived the window of every caller. -/
theorem SkewTracks.expire (h : SkewTracks skew l tr time keys) {e : SkewedEvent κ ι}
    (kind : KeyKind) (hsame : stamped l (e :: tr) = stamped l tr) :
    SkewTracks skew l (e :: tr) time (keys.expire kind time) := by
  cases kind with
  | total => exact h.shrink hsame le_rfl (fun _ _ _ _ hmem => hmem) (fun _ he => he) fun _ hd => hd
  | log =>
    rcases SortedSetKey.expire_cases time keys.log with heq | ⟨heq, d, hd, hle⟩
    · refine h.shrink hsame le_rfl (fun _ _ _ _ hmem => ?_) (fun e he => ?_) fun d hd => ?_
      · simpa only [LimitKeys.expire, heq] using hmem
      · simpa only [LimitKeys.expire, heq] using he
      · simpa only [LimitKeys.expire, heq] using hd
    · refine h.shrink hsame le_rfl (fun c hc hpos hwin hmem => ?_) (fun e he => ?_) fun d hd => ?_
      · have hcov := h.covered d hd _ hmem
        have hstamp := (abs_le.mp (h.synced c hc)).1
        simp only [StampedCharge.entry] at hcov
        have := l.window_pos
        omega
      · simp [LimitKeys.expire, heq] at he
      · simp [LimitKeys.expire, heq] at hd

/-- An admission of a new identifier. -/
theorem SkewTracks.admits (h : SkewTracks skew l tr time keys) (hnow : |nowMs - time| ≤ skew)
    {identifier : ι} {cost : κ → ℕ} {r : Reply} (hr : r.admitted = true)
    (hfresh : ∀ c ∈ stamped l tr, c.identifier ≠ identifier) :
    SkewTracks skew l (.call time nowMs (.acquire identifier cost) r :: tr) time
      ((Call.acquire identifier cost).onLimitAt true nowMs time l keys).2 := by
  have hcharges : stamped l (.call time nowMs (.acquire identifier cost) r :: tr) =
      ⟨identifier, time, nowMs, cost l.name⟩ :: stamped l tr := if_pos hr
  set evicted := evict time (nowMs - l.windowMs) (l.windowMs * 2) keys with hevicted
  -- the identifier is new, so the charge is a new member of the log
  have hnone : evicted.2.log.value.zscore ⟨cost l.name, identifier⟩ = none := by
    refine SortedSet.zscore_eq_none.mpr fun e he hm => ?_
    obtain ⟨c, hc, heq⟩ := h.known e (mem_log_evict.mp he).1
    exact hfresh c hc (heq.trans (congrArg Member.identifier hm))
  have hmem : ∀ e,
      e ∈ ((Call.acquire identifier cost).onLimitAt true nowMs time l keys).2.log.value.entries ↔
      (e ∈ keys.log.value.entries ∧ nowMs - l.windowMs < e.score) ∨
        0 < cost l.name ∧ e = ⟨⟨cost l.name, identifier⟩, nowMs⟩ := by
    intro e
    simp only [Call.onLimitAt, if_true]
    rw [mem_log_recordLimit _ _ _ _ ⟨l.name, l.limit, l.windowMs, cost l.name⟩ _ l.window_pos,
      mem_log_evict]
    simp only [← hevicted, hnone, true_and]
  have hahead : ∀ e ∈ ((Call.acquire identifier cost).onLimitAt true nowMs time l
      keys).2.log.value.entries, e.score ≤ time + skew := by
    intro e he
    rcases (hmem e).mp he with ⟨he, -⟩ | ⟨-, rfl⟩
    · exact h.ahead e he
    · have := (abs_le.mp hnow).2
      simp only
      omega
  constructor
  · rw [hcharges, List.forall_mem_cons]
    refine ⟨fun hpos _ => (hmem _).mpr (Or.inr ⟨hpos, rfl⟩), fun c hc hpos hwin => ?_⟩
    exact (hmem _).mpr (Or.inl ⟨h.recorded c hc hpos hwin, h.in_window hnow hc hwin⟩)
  · intro e he
    rw [hcharges]
    rcases (hmem e).mp he with ⟨he, -⟩ | ⟨-, rfl⟩
    · obtain ⟨c, hc, heq⟩ := h.known e he
      exact ⟨c, List.mem_cons_of_mem _ hc, heq⟩
    · exact ⟨_, List.mem_cons_self, rfl⟩
  · rw [hcharges, List.map_cons, List.nodup_cons]
    refine ⟨fun hin => ?_, h.distinct⟩
    obtain ⟨c, hc, heq⟩ := List.mem_map.mp hin
    exact hfresh c hc heq
  · rw [hcharges, List.forall_mem_cons]
    exact ⟨le_rfl, h.past⟩
  · rw [hcharges, List.forall_mem_cons]
    exact ⟨hnow, h.synced⟩
  · exact hahead
  · intro d hd e he
    simp only [Call.onLimitAt, if_true] at hd
    rcases deadline_recordLimit hd with ⟨hd, hzero⟩ | rfl
    · rcases (hmem e).mp he with ⟨he, -⟩ | ⟨hpos, -⟩
      · exact h.covered d (deadline_log_evict hd) e he
      · simp only at hzero
        omega
    · have := hahead e he
      simp only
      omega

/-- An adjust that does not raise what is in the window for its caller. -/
theorem SkewTracks.lower (h : SkewTracks skew l tr time keys) (hnow : |nowMs - time| ≤ skew)
    {identifier : ι} {acquiredAt : ℤ} {change : κ → Option (ℕ × ℕ)} {r : Reply} {admitted : Bool}
    {oldCost newCost : ℕ} (hchange : change l.name = some (oldCost, newCost))
    {c₀ : StampedCharge ι} (hc₀ : c₀ ∈ stamped l tr) (hid : c₀.identifier = identifier)
    (hstamp : c₀.stamp = acquiredAt) :
    SkewTracks skew l (.call time nowMs (.adjust identifier acquiredAt change) r :: tr) time
      ((Call.adjust identifier acquiredAt change).onLimitAt admitted nowMs time l keys).2 := by
  subst hid hstamp
  have hcharges : stamped l (.call time nowMs (.adjust c₀.identifier c₀.stamp change) r :: tr) =
      (stamped l tr).map (StampedCharge.replace l nowMs c₀.identifier newCost) := by
    simp only [stamped, hchange]
  have hmem : ∀ e, e ∈ ((Call.adjust c₀.identifier c₀.stamp change).onLimitAt admitted nowMs time l
      keys).2.log.value.entries ↔
      (0 < newCost ∧ nowMs - l.windowMs < c₀.stamp ∧
        e = ⟨⟨newCost, c₀.identifier⟩, c₀.stamp⟩) ∨
      ¬(0 < newCost ∧ nowMs - l.windowMs < c₀.stamp ∧
          e.member = ⟨newCost, c₀.identifier⟩) ∧
        ¬(0 < oldCost ∧ e.member = ⟨oldCost, c₀.identifier⟩) ∧
        e ∈ keys.log.value.entries ∧ nowMs - l.windowMs < e.score := by
    intro e
    simp only [Call.onLimitAt, hchange, Option.getD_some]
    exact mem_log_adjustLimit _ _ _ _ ⟨l.name, l.windowMs, oldCost, newCost⟩ _ l.window_pos
  have hahead : ∀ e ∈ ((Call.adjust c₀.identifier c₀.stamp change).onLimitAt admitted nowMs time l
      keys).2.log.value.entries, e.score ≤ time + skew := by
    intro e he
    rcases (hmem e).mp he with ⟨-, -, rfl⟩ | ⟨-, -, he, -⟩
    · have := (abs_le.mp (h.synced c₀ hc₀)).2
      have := h.past c₀ hc₀
      simp only
      omega
    · exact h.ahead e he
  constructor
  · rw [hcharges]
    intro c hc hpos hwin
    obtain ⟨c', hc', rfl⟩ := List.mem_map.mp hc
    rw [StampedCharge.executedAt_replace] at hwin
    have hin := h.in_window hnow hc' hwin
    -- the charge that is lowered, and the others
    by_cases heq : c'.identifier = c₀.identifier
    · obtain rfl := List.inj_on_of_nodup_map h.distinct hc' hc₀ heq
      rw [StampedCharge.replace, if_pos ⟨rfl, hin⟩] at hpos ⊢
      exact (hmem _).mpr (Or.inl ⟨hpos, hin, rfl⟩)
    · rw [StampedCharge.replace_of_ne heq] at hpos ⊢
      have hother : ∀ {cost : ℕ}, c'.entry.member ≠ ⟨cost, c₀.identifier⟩ := fun hm =>
        heq (congrArg Member.identifier hm)
      exact (hmem _).mpr (Or.inr ⟨fun hnew => hother hnew.2.2, fun hold => hother hold.2,
        h.recorded c' hc' hpos hwin, hin⟩)
  · intro e he
    rw [hcharges]
    have hknown : ∃ c ∈ stamped l tr, c.identifier = e.member.identifier := by
      rcases (hmem e).mp he with ⟨-, -, rfl⟩ | ⟨-, -, he, -⟩
      · exact ⟨c₀, hc₀, rfl⟩
      · exact h.known e he
    obtain ⟨c, hc, heq⟩ := hknown
    exact ⟨_, List.mem_map_of_mem hc, StampedCharge.identifier_replace.trans heq⟩
  · rw [hcharges, List.map_map]
    have hsame : StampedCharge.identifier ∘ StampedCharge.replace l nowMs c₀.identifier newCost =
        StampedCharge.identifier := funext fun c => StampedCharge.identifier_replace
    rw [hsame]
    exact h.distinct
  · rw [hcharges, List.forall_mem_map]
    intro c hc
    rw [StampedCharge.executedAt_replace]
    exact h.past c hc
  · rw [hcharges, List.forall_mem_map]
    intro c hc
    rw [StampedCharge.executedAt_replace, StampedCharge.stamp_replace]
    exact h.synced c hc
  · exact hahead
  · intro d hd e he
    have hcases := deadline_adjustLimit hd
    rcases hcases with rfl | ⟨hd, hsub⟩
    · have := hahead e he
      simp only
      omega
    · exact h.covered d hd e (hsub e he)

/-! ## The bound -/

/-- The figure an acquire checks is at least what ran within the shorter window. -/
theorem SkewTracks.stampedIn_le (h : SkewTracks skew l tr time keys)
    (hnow : |nowMs - time| ≤ skew) (hkeys : Consistent keys) (ttlMs : ℤ) :
    stampedIn skew l tr time ≤ (evict time (nowMs - l.windowMs) ttlMs keys).1 := by
  rw [(evict_accounted _ _ _ hkeys).2, sumCosts]
  refine windowSum_le_records (g := StampedCharge.entry)
    (fun e => Int.natCast_nonneg e.member.cost) ?_ ?_
  · refine List.Nodup.of_map (fun e => e.member.identifier) ?_
    rw [List.map_map]
    exact h.distinct
  · intro c hc hwin hne
    have hpos : 0 < c.cost := by
      refine Nat.pos_of_ne_zero fun hzero => hne ?_
      rw [StampedCharge.weight, hzero]
      rfl
    exact ⟨mem_log_evict.mpr ⟨h.recorded c hc hpos hwin, h.in_window hnow hc hwin⟩, rfl⟩

/-- An adjust that raises nothing lowers every window position. -/
theorem SkewTracks.stampedIn_lower (h : SkewTracks skew l tr time keys) {identifier : ι}
    {acquiredAt : ℤ} {change : κ → Option (ℕ × ℕ)} {r : Reply} {oldCost newCost : ℕ}
    (hchange : change l.name = some (oldCost, newCost)) {c₀ : StampedCharge ι}
    (hc₀ : c₀ ∈ stamped l tr) (hid : c₀.identifier = identifier) (hstamp : c₀.stamp = acquiredAt)
    (hlow : nowMs - l.windowMs < acquiredAt → newCost ≤ c₀.cost) (p : ℤ) :
    stampedIn skew l (.call time nowMs (.adjust identifier acquiredAt change) r :: tr) p ≤
      stampedIn skew l tr p := by
  subst hid hstamp
  have hcharges : stamped l (.call time nowMs (.adjust c₀.identifier c₀.stamp change) r :: tr) =
      (stamped l tr).map (StampedCharge.replace l nowMs c₀.identifier newCost) := by
    simp only [stamped, hchange]
  rw [stampedIn, stampedIn, hcharges]
  refine windowSum_map_le (fun c => StampedCharge.executedAt_replace) (fun c hc => ?_) p
  rw [StampedCharge.replace]
  split
  · rename_i heq
    obtain rfl := List.inj_on_of_nodup_map h.distinct hc hc₀ heq.1
    exact Int.ofNat_le.mpr (hlow heq.2)
  · exact le_rfl

end Tracks

variable [DecidableEq κ] [DecidableEq ι] {cfg : Config κ} {skew : ℤ}

/-- The invariant of the bound, for one limit. -/
def SkewBounded (skew : ℤ) (l : Limit κ) (tr : List (SkewedEvent κ ι)) (s : Server κ ι) : Prop :=
  SkewTracks skew l tr s.time (s.store l.name) ∧ ∀ p, stampedIn skew l tr p ≤ l.limit

section Step

variable {tr : List (SkewedEvent κ ι)} {s s' : Server κ ι} {e : SkewedEvent κ ι}

omit [DecidableEq ι] in
/-- The store stays consistent on any clock. -/
theorem consistent_skewedStep (h : ∀ name, Consistent (s.store name))
    (hs : SkewedStep skew cfg s e s') (name : κ) : Consistent (s'.store name) := by
  cases hs with
  | call c nowMs hnow =>
    by_cases htouched : ∃ l ∈ c.touched cfg, l.name = name
    · obtain ⟨l, hl, rfl⟩ := htouched
      simp only [execAt_touched _ _ _ _ _ hl]
      exact (onLimitAt_accounted (h l.name)).1.consistent
    · push Not at htouched
      simp only [execAt_untouched _ _ _ _ _ htouched]
      exact h name
  | wait time hle => exact h name
  | expire name' kind =>
    by_cases hname : name = name'
    · subst hname
      simp only [Function.update_self]
      exact (h name).expire kind s.time
    · simp only [Function.update_of_ne hname]
      exact h name
  | loseTotal name' =>
    by_cases hname : name = name'
    · subst hname
      simp only [Function.update_self]
      exact Consistent.delete .total
    · simp only [Function.update_of_ne hname]
      exact h name

/-- An admitted acquire of a new identifier. -/
theorem SkewBounded.admits {l : Limit κ} {identifier : ι} {cost : κ → ℕ} {nowMs : ℤ}
    (hall : ∀ l ∈ cfg.limits, SkewBounded skew l tr s) (hkeys : ∀ name, Consistent (s.store name))
    (hl : l ∈ cfg.limits) (hnow : |nowMs - s.time| ≤ skew)
    (hfresh : ∀ l ∈ cfg.limits, ∀ c ∈ stamped l tr, c.identifier ≠ identifier)
    (hr : (execAt cfg (.acquire identifier cost) nowMs s.time s.store).1.admitted = true) :
    SkewBounded skew l (.call s.time nowMs (.acquire identifier cost)
        (execAt cfg (.acquire identifier cost) nowMs s.time s.store).1 :: tr)
      { s with store := (execAt cfg (.acquire identifier cost) nowMs s.time s.store).2 } := by
  obtain ⟨htracks, hbound⟩ := hall l hl
  have hcharges : stamped l (.call s.time nowMs (.acquire identifier cost)
      (execAt cfg (.acquire identifier cost) nowMs s.time s.store).1 :: tr) =
      ⟨identifier, s.time, nowMs, cost l.name⟩ :: stamped l tr := if_pos hr
  have hstore := execAt_touched cfg nowMs s.time s.store (.acquire identifier cost) hl
  refine ⟨?_, fun p => ?_⟩
  · simp only [hstore, hr]
    exact htracks.admits hnow hr (hfresh l hl)
  · rw [stampedIn, hcharges]
    refine windowSum_cons_le StampedCharge.weight_nonneg htracks.past hbound ?_ p
    -- nothing is recorded under a new identifier, so every charged limit was checked
    have hnot : ∀ a ∈ acquireArgs cfg cost, ¬Recorded identifier a.cost
        (evict s.time (nowMs - a.windowMs) (a.windowMs * 2) (s.store a.name)).2 := by
      intro a ha
      obtain ⟨l', hl', rfl⟩ := List.mem_map.mp ha
      rintro ⟨-, hsome⟩
      obtain ⟨score, hscore⟩ := Option.isSome_iff_exists.mp hsome
      obtain ⟨c, hc, heq⟩ := (hall l' hl').1.known _
        (mem_log_evict.mp (SortedSet.zscore_eq_some.mp hscore)).1
      exact hfresh l' hl' c hc heq
    have hroom := (fits_of_admittedAt hr).le hnot ⟨l.name, l.limit, l.windowMs, cost l.name⟩
      (List.mem_map_of_mem hl)
    have hsum := htracks.stampedIn_le hnow (hkeys l.name) (l.windowMs * 2)
    have hold := hbound s.time
    simp only [StampedCharge.weight]
    simp only [stampedIn] at hsum hold
    by_cases hpos : 0 < cost l.name
    · have := hroom hpos
      simp only at this
      omega
    · omega

/-- **One step** of the bound. -/
theorem skewBounded_step (hall : ∀ l ∈ cfg.limits, SkewBounded skew l tr s)
    (hkeys : ∀ name, Consistent (s.store name)) (hok : SkewedOk cfg tr e)
    (hs : SkewedStep skew cfg s e s') : ∀ l ∈ cfg.limits, SkewBounded skew l (e :: tr) s' := by
  intro l hl
  obtain ⟨htracks, hbound⟩ := hall l hl
  cases hs with
  | call c nowMs hnow =>
    cases c with
    | acquire identifier cost =>
      by_cases hr : (execAt cfg (.acquire identifier cost) nowMs s.time s.store).1.admitted = true
      · exact SkewBounded.admits hall hkeys hl hnow hok hr
      -- denied: the log is evicted and nothing is charged
      · have hsame : stamped l (.call s.time nowMs (.acquire identifier cost)
            (execAt cfg (.acquire identifier cost) nowMs s.time s.store).1 :: tr) = stamped l tr :=
          if_neg hr
        have hstore := execAt_touched cfg nowMs s.time s.store (.acquire identifier cost) hl
        rw [Bool.not_eq_true] at hr
        refine ⟨?_, fun p => by rw [stampedIn, hsame]; exact hbound p⟩
        simp only [hstore, hr]
        exact htracks.evicted hsame hnow
    | adjust identifier acquiredAt change =>
      cases hchange : change l.name with
      | none =>
        have hsame : stamped l (.call s.time nowMs (.adjust identifier acquiredAt change)
            (execAt cfg (.adjust identifier acquiredAt change) nowMs s.time s.store).1 :: tr) =
            stamped l tr := by
          simp only [stamped, hchange]
        have huntouched : ∀ l' ∈ (Call.adjust identifier acquiredAt change).touched cfg,
            l'.name ≠ l.name := by
          intro l' hl' heq
          have hchanged := (mem_changedLimits.mp hl').2
          rw [heq, hchange] at hchanged
          cases hchanged
        have hstore := execAt_untouched cfg nowMs s.time s.store _ huntouched
        refine ⟨?_, fun p => by rw [stampedIn, hsame]; exact hbound p⟩
        simp only [hstore]
        exact htracks.mono hsame le_rfl
      | some costs =>
        obtain ⟨oldCost, newCost⟩ := costs
        -- the adjustment is of a charge, and raises nothing that is in the window
        obtain ⟨c₀, hc₀, hid, hstamp, hlow⟩ := hok l hl oldCost newCost hchange
        have hstore := execAt_touched cfg nowMs s.time s.store
          (.adjust identifier acquiredAt change) (l := l)
          (mem_changedLimits.mpr ⟨hl, by rw [hchange]; rfl⟩)
        refine ⟨?_, fun p =>
          (htracks.stampedIn_lower hchange hc₀ hid hstamp hlow p).trans (hbound p)⟩
        simp only [hstore]
        exact htracks.lower hnow hchange hc₀ hid hstamp
    | status =>
      have hstore := execAt_touched cfg nowMs s.time s.store .status hl
      refine ⟨?_, hbound⟩
      simp only [hstore]
      exact htracks.evicted rfl hnow
  | wait time hle => exact ⟨htracks.mono rfl hle, hbound⟩
  | expire name kind =>
    refine ⟨?_, hbound⟩
    by_cases hname : l.name = name
    · subst hname
      simp only [Function.update_self]
      exact htracks.expire kind rfl
    · simp only [Function.update_of_ne hname]
      exact htracks.mono rfl le_rfl
  | loseTotal name =>
    refine ⟨?_, hbound⟩
    by_cases hname : l.name = name
    · subst hname
      simp only [Function.update_self]
      exact htracks.shrink rfl le_rfl (fun _ _ _ _ hmem => hmem) (fun _ he => he) fun _ hd => hd
    · simp only [Function.update_of_ne hname]
      exact htracks.mono rfl le_rfl

end Step

/-- The invariant holds in every run in which the clocks stay within the skew. -/
theorem skewBounded_of_run {tr : List (SkewedEvent κ ι)} {s : Server κ ι}
    (h : (skewedSystem skew cfg).Run tr s) (hok : Guarded (SkewedOk cfg) tr) :
    (∀ name, Consistent (s.store name)) ∧ ∀ l ∈ cfg.limits, SkewBounded skew l tr s := by
  refine System.Run.invariant (M := skewedSystem skew cfg)
    (I := fun tr s => Guarded (SkewedOk cfg) tr →
      (∀ name, Consistent (s.store name)) ∧ ∀ l ∈ cfg.limits, SkewBounded skew l tr s) ?_ ?_ h hok
  · intro s hs _
    have hstore : s.store = fun _ => LimitKeys.initial := hs
    simp only [SkewBounded, hstore]
    refine ⟨fun name => consistent_initial, fun l _ => ⟨⟨?_, ?_, ?_, ?_, ?_, ?_, ?_⟩, fun p => ?_⟩⟩
    · exact fun c hc => absurd hc List.not_mem_nil
    · exact fun e he => absurd he List.not_mem_nil
    · exact List.nodup_nil
    · exact fun c hc => absurd hc List.not_mem_nil
    · exact fun c hc => absurd hc List.not_mem_nil
    · exact fun e he => absurd he List.not_mem_nil
    · exact fun d hd e he => absurd he List.not_mem_nil
    · exact Int.natCast_nonneg l.limit
  · rintro tr s e s' - ih hs ⟨hok, hguard⟩
    obtain ⟨hkeys, hall⟩ := ih hguard
    exact ⟨consistent_skewedStep hkeys hs, skewBounded_step hall hkeys hok hs⟩

/-- **The window with synchronised clients.** In every run of clients whose clocks are within `skew`
of the server's when their scripts run, in which identifiers are not used again and adjusts raise
nothing that is in the window: whatever was admitted in a stretch of `window - 2 * skew` on the
server's clock sums to at most the limit. -/
theorem synced_window_le_limit {tr : List (SkewedEvent κ ι)} {s : Server κ ι}
    (h : (skewedSystem skew cfg).Run tr s) (hok : Guarded (SkewedOk cfg) tr) :
    ∀ l ∈ cfg.limits, ∀ p, stampedIn skew l tr p ≤ l.limit := fun l hl =>
  ((skewBounded_of_run h hok).2 l hl).2

/-- The first client is 100 ms ahead. The second is 100 ms behind and denied. -/
def skewed : List (SkewedEvent ℕ ℕ) :=
  [.call 1500 1400 (.acquire 8 fun _ => 5) (.acquire ⟨false, 700, 1400, [6]⟩), .wait 1500,
    .call 1000 1100 (.acquire 7 fun _ => 6) (.acquire ⟨true, 0, 1100, [6]⟩)]

/-- Six units are admitted on a clock that is ahead; five more are refused on one that is behind. -/
theorem synced_window_le_limit_ahead :
    stampedIn 100 tenUnits skewed 1500 = 6 ∧ ∀ p, stampedIn 100 tenUnits skewed p ≤ 10 := by
  have hstart : (skewedSystem 100 tenPerSecond).Run []
      (⟨1000, fun _ => LimitKeys.initial⟩ : Server ℕ ℕ) := .start rfl
  have hfirst := hstart.step (.call _ (.acquire 7 fun _ => 6) 1100 (by decide))
  have hrun : (skewedSystem 100 tenPerSecond).Run skewed _ :=
    (hfirst.step (.wait _ 1500 (by decide))).step
      (.call _ (.acquire 8 fun _ => 5) 1400 (by decide))
  have hok : Guarded (SkewedOk tenPerSecond) skewed := by
    refine ⟨fun l hl c hc => ?_, trivial, fun l hl c hc => ?_, trivial⟩
    · obtain rfl := List.mem_singleton.mp hl
      obtain rfl := List.mem_singleton.mp hc
      decide
    · cases hc
  exact ⟨by decide, synced_window_le_limit hrun hok tenUnits List.mem_cons_self⟩

end RedisSemaphore.RateLimiter
