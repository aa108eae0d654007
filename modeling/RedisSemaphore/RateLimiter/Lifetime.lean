import RedisSemaphore.RateLimiter.Accounting
import RedisSemaphore.RateLimiter.Expiry

/-!
# How long the keys of a limit live

Redis drops a key at its deadline, so between scripts no key is past it: `Current`. Then a log has a
deadline, its total has one that is no later, and no total is left without its log: `Mortal`. The
total is the harder half. It is created by `INCRBY`, which sets no deadline, rebuilt by `recount`
with one of its own, and outlives the `ZREM` that empties the log; every path through the scripts
ends with `touch`, with the deadline of the log, or with `DEL`.

These are runs whose scripts are executed to their end, as all of `system` are. An execution that
ends with an error may stop before its `touch`: an adjust to a cost that `INCRBY` refuses has then
deleted the log and created it again by `ZADD`, and no deadline is set. `Abort` is about those.
-/

namespace RedisSemaphore.RateLimiter

open Redis Transition

variable {κ ι : Type*} [LinearOrder (Member ι)]

/-- Neither key is past its deadline. -/
structure Current (time : ℤ) (keys : LimitKeys ι) : Prop where
  log : ∀ d, keys.log.deadline = some d → time < d
  total : ∀ d, keys.total.deadline = some d → time < d

instance (time : ℤ) (keys : LimitKeys ι) : Decidable (Current time keys) :=
  decidable_of_iff ((∀ d ∈ keys.log.deadline, time < d) ∧ ∀ d ∈ keys.total.deadline, time < d)
    ⟨fun h => ⟨h.1, h.2⟩, fun h => ⟨h.log, h.total⟩⟩

/-- A log has a deadline; a total has one too, and a log that lives as long. -/
structure Mortal (keys : LimitKeys ι) : Prop where
  log : keys.log.value.entries ≠ [] → ∃ d, keys.log.deadline = some d
  total : keys.total ≠ none →
    ∃ d d', keys.total.deadline = some d ∧ keys.log.deadline = some d' ∧ d ≤ d'

/-- `Mortal`, but for a total past its deadline, which may have lost its log. -/
structure Lapsing (time : ℤ) (keys : LimitKeys ι) : Prop where
  log : keys.log.value.entries ≠ [] → ∃ d, keys.log.deadline = some d
  total : keys.total ≠ none → ∃ d, keys.total.deadline = some d ∧
    (d ≤ time ∨ ∃ d', keys.log.deadline = some d' ∧ d ≤ d')

section Keys

variable {keys : LimitKeys ι} {time time' d : ℤ}

/-- Keys that have deadlines lapse. -/
theorem Mortal.lapsing (h : Mortal keys) (time : ℤ) : Lapsing time keys := by
  refine ⟨h.log, fun hne => ?_⟩
  obtain ⟨d, d', hd, hd', hle⟩ := h.total hne
  exact ⟨d, hd, Or.inr ⟨d', hd', hle⟩⟩

/-- Keys whose deadlines have yet to pass have them. -/
theorem Lapsing.mortal (h : Lapsing time keys) (hcurrent : Current time keys) : Mortal keys := by
  refine ⟨h.log, fun hne => ?_⟩
  obtain ⟨d, hd, hpast | ⟨d', hd', hle⟩⟩ := h.total hne
  · have := hcurrent.total d hd
    omega
  · exact ⟨d, d', hd, hd', hle⟩

/-- As time passes nothing needs more of a deadline. -/
theorem Lapsing.mono (h : Lapsing time keys) (hle : time ≤ time') : Lapsing time' keys := by
  refine ⟨h.log, fun hne => ?_⟩
  obtain ⟨d, hd, hpast | hlog⟩ := h.total hne
  · exact ⟨d, hd, Or.inl (by omega)⟩
  · exact ⟨d, hd, Or.inr hlog⟩

/-- Keys that do not exist. -/
theorem lapsing_initial : Lapsing time (LimitKeys.initial : LimitKeys ι) :=
  ⟨fun hne => absurd rfl hne, fun hne => absurd rfl hne⟩

/-- Losing the total leaves the log with its deadline. -/
theorem Lapsing.lose_total (h : Lapsing time keys) : Lapsing time (keys.delete .total) :=
  ⟨h.log, fun hne => absurd rfl hne⟩

/-- A log that goes at its deadline leaves a total that is past its own. -/
theorem Lapsing.expire (h : Lapsing time keys) (kind : KeyKind) :
    Lapsing time (keys.expire kind time) := by
  cases kind with
  | total =>
    refine ⟨h.log, fun hne => ?_⟩
    have hkept : keys.total.expire time = keys.total := CounterKey.expire_of_ne_none hne
    simp only [LimitKeys.expire, hkept] at hne ⊢
    exact h.total hne
  | log =>
    rcases SortedSetKey.expire_cases time keys.log with heq | ⟨heq, d', hd', hpast⟩
    · simp only [LimitKeys.expire, heq]
      exact ⟨h.log, h.total⟩
    · simp only [LimitKeys.expire, heq]
      refine ⟨fun hne => absurd rfl hne, fun hne => ?_⟩
      obtain ⟨d, hd, hold | ⟨d'', hd'', hle⟩⟩ := h.total hne
      · exact ⟨d, hd, Or.inl hold⟩
      · obtain rfl := Option.some.inj (hd'.symm.trans hd'')
        exact ⟨d, hd, Or.inl (by omega)⟩

end Keys

/-! ## The scripts -/

section Scripts

variable {keys : LimitKeys ι} {time ttlMs : ℤ}

/-- Keys that do not exist have nothing to outlive. -/
theorem mortal_of_nil (hlog : keys.log.value.entries = []) (htotal : keys.total = none) :
    Mortal keys :=
  ⟨fun hne => absurd hlog hne, fun hne => absurd htotal hne⟩

/-- `touch` gives both keys one deadline. -/
theorem mortal_touch (httl : 0 < ttlMs) (hne : keys.log.value.entries ≠ []) :
    Mortal (touch time ttlMs keys) := by
  have hlog : (touch time ttlMs keys).log.deadline = some (time + ttlMs) := by
    show (keys.log.pexpire time ttlMs).deadline = _
    rw [SortedSetKey.pexpire, if_neg (by omega)]
    exact if_neg hne
  refine ⟨fun _ => ⟨_, hlog⟩, fun htotal => ?_⟩
  exact ⟨_, _, CounterKey.deadline_pexpire htotal, hlog, le_rfl⟩

/-- A rebuilt total gets the deadline of the log. -/
theorem mortal_recount {d : ℤ} (hd : keys.log.deadline = some d) (hlive : time < d) :
    Mortal (recount time ttlMs keys).2 := by
  have hne : keys.log.value.entries ≠ [] := by
    intro hnil
    rw [keys.log.absent hnil] at hd
    cases hd
  have httl : keys.log.pttl time = d - time := by
    rw [SortedSetKey.pttl, if_neg hne, hd]
  refine ⟨fun _ => ⟨d, hd⟩, fun _ => ⟨d, d, ?_, hd, le_rfl⟩⟩
  simp only [recount, httl]
  rw [if_pos (by omega), CounterKey.deadline_pexpire]
  · congr 1
    omega
  · rw [CounterKey.pexpire, if_neg (by omega)]
    simp [CounterKey.setPx]

/-- `settleTotal` drops a total without a log, and keeps or rebuilds one with a log. -/
theorem mortal_settleTotal {freed : ℤ}
    (hlog : keys.log.value.entries ≠ [] → ∃ d, keys.log.deadline = some d ∧ time < d)
    (htotal : keys.total ≠ none → ∃ d, keys.total.deadline = some d ∧
      ∀ d', keys.log.deadline = some d' → d ≤ d') :
    Mortal (settleTotal time ttlMs freed keys).2 := by
  by_cases hnil : keys.log.value.entries = []
  · rw [settleTotal, if_pos (by rw [SortedSet.zcard, hnil]; rfl)]
    exact mortal_of_nil hnil rfl
  · obtain ⟨d', hd', hlive⟩ := hlog hnil
    rw [settleTotal, if_neg (by rw [SortedSet.zcard, List.length_eq_zero_iff]; exact hnil)]
    cases hraw : keys.total.get with
    | none => exact mortal_recount hd' hlive
    | some raw =>
      have hne : keys.total ≠ none := by
        intro hnone
        rw [hnone] at hraw
        cases hraw
      obtain ⟨d, hd, hle⟩ := htotal hne
      -- `DECRBY` leaves the deadline of the total as it is
      have hkept : ∀ total : CounterKey, total.deadline = keys.total.deadline →
          Mortal { keys with total := total } := fun total hsame =>
        ⟨fun _ => ⟨d', hd'⟩, fun _ => ⟨d, d', hsame.trans hd, hd', hle d' hd'⟩⟩
      by_cases hpos : 0 < freed
      · simp only [if_pos hpos]
        split
        · have hrecount : Mortal
              (recount time ttlMs { keys with total := keys.total.decrby freed }).2 :=
            mortal_recount hd' hlive
          exact hrecount
        · exact hkept _ (CounterKey.deadline_decrby _ _)
      · simp only [if_neg hpos]
        split
        · exact mortal_recount hd' hlive
        · exact hkept _ rfl

/-- **`evict`** of keys that are not past their deadline. -/
theorem mortal_evict {cutoff : ℤ} (h : Mortal keys) (hcurrent : Current time keys) :
    Mortal (evict time cutoff ttlMs keys).2 := by
  rw [evict, dropExpired_eq]
  have hdeadline : ∀ d, (keys.log.update fun z => z.zremRangeByScore cutoff).deadline = some d →
      keys.log.deadline = some d := fun d hd => SortedSetKey.deadline_store hd
  refine mortal_settleTotal (fun hne => ?_) fun hne => ?_
  · have hsome : keys.log.value.entries ≠ [] := by
      intro hnil
      simp [SortedSet.zremRangeByScore, SortedSet.keep, hnil] at hne
    obtain ⟨d, hd⟩ := h.log hsome
    refine ⟨d, ?_, hcurrent.log d hd⟩
    show (SortedSetKey.store _ keys.log.deadline).deadline = _
    rw [hd]
    exact if_neg hne
  · obtain ⟨d, d', hd, hd', hle⟩ := h.total hne
    refine ⟨d, hd, fun d'' hd'' => ?_⟩
    obtain rfl := Option.some.inj (hd'.symm.trans (hdeadline d'' hd''))
    exact hle

/-- Recording ends with `touch`, which gives both keys a deadline. -/
theorem mortal_recordLimit {identifier : ι} {nowMs used : ℤ} {arg : AcquireArg κ}
    (hwindow : 0 < arg.windowMs) (h : Mortal keys) :
    Mortal (recordLimit identifier nowMs time arg used keys).2 := by
  have httl : (0 : ℤ) < arg.windowMs * 2 := by omega
  rcases recordLimit_cases identifier nowMs time used arg keys with
    ⟨-, heq⟩ | ⟨-, -, heq⟩ | ⟨-, ⟨score, hs⟩, heq⟩
  · rw [heq]
    exact h
  · rw [heq]
    apply mortal_touch httl
    exact List.ne_nil_of_mem (SortedSet.mem_zadd.mpr (Or.inl rfl))
  · rw [heq]
    apply mortal_touch httl
    exact List.ne_nil_of_mem (SortedSet.zscore_eq_some.mp hs)

/-- An adjust that removes the last entry leaves no total, or adds an entry. -/
theorem mortal_addAdjusted {identifier : ι} {nowMs acquiredAt total : ℤ} {arg : AdjustArg κ}
    (hwindow : 0 < arg.windowMs) (h : keys.log.value.entries ≠ [] → Mortal keys) :
    Mortal (addAdjusted identifier nowMs time acquiredAt arg total keys).2 := by
  have httl : (0 : ℤ) < arg.windowMs * 2 := by omega
  simp only [addAdjusted]
  split
  · apply mortal_touch httl
    exact List.ne_nil_of_mem (SortedSet.mem_zadd.mpr (Or.inl rfl))
  · split
    · rename_i hcard
      exact mortal_of_nil (List.length_eq_zero_iff.mp hcard) rfl
    · rename_i hcard
      exact h fun hnil => hcard (by rw [SortedSet.zcard, hnil]; rfl)

/-- With a log there is a total for `DECRBY` to keep. -/
theorem mortal_removeRecorded {identifier : ι} {oldCost : ℕ} {total : ℤ} (h : Mortal keys)
    (hbalanced : Balanced keys)
    (hne : (removeRecorded identifier oldCost total keys).2.log.value.entries ≠ []) :
    Mortal (removeRecorded identifier oldCost total keys).2 := by
  unfold removeRecorded at hne ⊢
  simp only at hne ⊢
  split at hne
  · rename_i hcond
    rw [if_pos hcond]
    obtain ⟨score, hscore⟩ := Option.isSome_iff_exists.mp hcond.2
    have hlogged : keys.log.value.entries ≠ [] :=
      List.ne_nil_of_mem (SortedSet.zscore_eq_some.mp hscore)
    have htotal : keys.total ≠ none := by
      intro hnone
      apply hbalanced.2 hlogged
      rw [hnone]
      rfl
    obtain ⟨d, d', hd, hd', hle⟩ := h.total htotal
    have hlog : (keys.log.update fun z => z.zrem ⟨oldCost, identifier⟩).deadline = some d' := by
      show (SortedSetKey.store _ keys.log.deadline).deadline = _
      rw [hd']
      exact if_neg hne
    exact ⟨fun _ => ⟨d', hlog⟩,
      fun _ => ⟨d, d', (CounterKey.deadline_decrby _ _).trans hd, hlog, hle⟩⟩
  · rename_i hcond
    rw [if_neg hcond]
    exact h

/-- **One script, one limit.** -/
theorem mortal_onLimit {call : Call κ ι} {admitted : Bool} {l : Limit κ} (h : Mortal keys)
    (hcurrent : Current time keys) (hconsistent : Consistent keys) :
    Mortal (call.onLimit admitted time l keys).2 := by
  have hevict : Mortal (evict time (time - l.windowMs) (l.windowMs * 2) keys).2 :=
    mortal_evict h hcurrent
  cases call with
  | status => exact hevict
  | acquire identifier cost =>
    cases admitted with
    | false => exact hevict
    | true => exact mortal_recordLimit l.window_pos hevict
  | adjust identifier acquiredAt change =>
    have hbalanced :=
      (evict_accounted time (time - l.windowMs) (l.windowMs * 2) hconsistent).1.balanced
    exact mortal_addAdjusted l.window_pos fun hne => mortal_removeRecorded hevict hbalanced hne

end Scripts

/-! ## Runs -/

/-- When an event charges a limit: an admitted acquire with a cost for it, or an adjust of it. -/
def chargedAt (l : Limit κ) : Event κ ι → Option ℤ
  | .call t (.acquire _ cost) r => if r.admitted = true ∧ 0 < cost l.name then some t else none
  | .call t (.adjust _ _ change) _ => if (change l.name).isSome then some t else none
  | _ => none

/-- When a limit was last charged or adjusted. -/
def lastCharged (l : Limit κ) (tr : List (Event κ ι)) : Option ℤ :=
  tr.findSome? (chargedAt l)

omit [LinearOrder (Member ι)] in
/-- The latest event that charges the limit counts. -/
theorem lastCharged_cons (l : Limit κ) (e : Event κ ι) (tr : List (Event κ ι)) :
    lastCharged l (e :: tr) = (chargedAt l e).or (lastCharged l tr) := by
  unfold lastCharged
  rw [List.findSome?_cons]
  cases chargedAt l e <;> rfl

/-- A script that does not charge a limit gives its log no new deadline. -/
theorem deadline_of_not_charged {l : Limit κ} {keys : LimitKeys ι} {time d : ℤ} {call : Call κ ι}
    {r : Reply} (hnone : chargedAt l (.call time call r) = none)
    (htouched : ∀ identifier acquiredAt change, call = .adjust identifier acquiredAt change →
      (change l.name).isSome)
    (hd : (call.onLimit r.admitted time l keys).2.log.deadline = some d) :
    keys.log.deadline = some d := by
  cases call with
  | status => exact deadline_log_evict hd
  | adjust identifier acquiredAt change =>
    have hsome := htouched _ _ _ rfl
    simp [chargedAt, hsome] at hnone
  | acquire identifier cost =>
    cases hadmitted : r.admitted with
    | false =>
      rw [hadmitted] at hd
      exact deadline_log_evict hd
    | true =>
      simp only [chargedAt, hadmitted, true_and, ite_eq_right_iff, reduceCtorEq, imp_false] at hnone
      rw [hadmitted] at hd
      simp only [Call.onLimit, recordLimit, if_neg hnone, if_true] at hd
      exact deadline_log_evict hd

variable [DecidableEq κ] {cfg : Config κ}

/-- Keys go at their deadlines, so a script finds none that is past it; and a total may be lost. -/
def Exact (cfg : Config κ) (s : Server κ ι) : Event κ ι → Prop
  | .call t call r => (∀ l ∈ cfg.limits, Current s.time (s.store l.name)) ∧
      PastAdjust (.call t call r)
  | .wait _ => True
  | .expire _ _ => True
  | .lose _ kind => kind = .total

/-- What holds of a limit at any moment of a run. -/
structure Fading (l : Limit κ) (tr : List (Event κ ι)) (time : ℤ) (keys : LimitKeys ι) : Prop where
  timely : Timely l time keys
  lapsing : Lapsing time keys
  past : ∀ t, lastCharged l tr = some t → t ≤ time
  bounded : ∀ d, keys.log.deadline = some d →
    ∃ t, lastCharged l tr = some t ∧ d ≤ t + l.windowMs * 2

section Fading

variable {l : Limit κ} {tr : List (Event κ ι)} {time time' : ℤ} {keys : LimitKeys ι}
  {e : Event κ ι}

omit [DecidableEq κ] in
/-- Time, expiry and the loss of a total bring no deadline further off. -/
theorem Fading.quiet (h : Fading l tr time keys) (hnone : chargedAt l e = none)
    (hle : time ≤ time') {keys' : LimitKeys ι} (htimely : Timely l time' keys')
    (hlapsing : Lapsing time' keys')
    (hdeadline : ∀ d, keys'.log.deadline = some d → keys.log.deadline = some d) :
    Fading l (e :: tr) time' keys' := by
  have hlast : lastCharged l (e :: tr) = lastCharged l tr := by
    rw [lastCharged_cons, hnone]
    rfl
  refine ⟨htimely, hlapsing, fun t ht => ?_, fun d hd => ?_⟩
  · rw [hlast] at ht
    exact (h.past t ht).trans hle
  · rw [hlast]
    exact h.bounded d (hdeadline d hd)

omit [DecidableEq κ] in
/-- A script on a limit it touches. -/
theorem Fading.call (h : Fading l tr time keys) {call : Call κ ι} {r : Reply}
    (hcurrent : Current time keys) (hconsistent : Consistent keys)
    (hpast : PastAdjust (.call time call r))
    (htouched : ∀ identifier acquiredAt change, call = .adjust identifier acquiredAt change →
      (change l.name).isSome) :
    Fading l (.call time call r :: tr) time (call.onLimit r.admitted time l keys).2 := by
  have htimely := h.timely.onLimit call r.admitted hpast
  have hmortal : Mortal (call.onLimit r.admitted time l keys).2 :=
    mortal_onLimit (h.lapsing.mortal hcurrent) hcurrent hconsistent
  cases hcharged : chargedAt l (.call time call r) with
  | none =>
    apply h.quiet hcharged le_rfl htimely (hmortal.lapsing time)
    intro d hd
    exact deadline_of_not_charged hcharged htouched hd
  | some t =>
    have ht : t = time := by
      cases call <;> simp [chargedAt] at hcharged <;> omega
    have hlast : lastCharged l (.call time call r :: tr) = some time := by
      rw [lastCharged_cons, hcharged, ht]
      rfl
    refine ⟨htimely, hmortal.lapsing time, fun t ht => ?_, fun d hd => ?_⟩
    · rw [hlast] at ht
      exact (Option.some.inj ht).ge
    · refine ⟨time, hlast, ?_⟩
      rcases deadline_onLimit hd with rfl | ⟨hold, -⟩
      · exact le_rfl
      · obtain ⟨t, ht, hle⟩ := h.bounded d hold
        have := h.past t ht
        omega

end Fading

/-- **One step** of the lifetimes. -/
theorem fading_step {tr : List (Event κ ι)} {s s' : Server κ ι} {e : Event κ ι}
    (hconsistent : ∀ name, Consistent (s.store name))
    (h : ∀ l ∈ cfg.limits, Fading l tr s.time (s.store l.name)) (hexact : Exact cfg s e)
    (hs : Step cfg s e s') : ∀ l ∈ cfg.limits, Fading l (e :: tr) s'.time (s'.store l.name) := by
  intro l hl
  have hlimit := h l hl
  cases hs with
  | call c =>
    obtain ⟨hcurrent, hpast⟩ := hexact
    -- a call charges just the limits it touches
    by_cases htouched : l ∈ c.touched cfg
    · simp only [exec_touched _ _ _ _ htouched]
      apply hlimit.call (hcurrent l hl) (hconsistent l.name) hpast
      rintro identifier acquiredAt change rfl
      exact (mem_changedLimits.mp htouched).2
    · have hnone : chargedAt l (.call s.time c (exec cfg c s.time s.store).1) = none := by
        cases c with
        | acquire identifier cost => exact absurd hl htouched
        | status => rfl
        | adjust identifier acquiredAt change =>
          have hunchanged : ¬(change l.name).isSome := fun hsome =>
            htouched (mem_changedLimits.mpr ⟨hl, hsome⟩)
          simp [chargedAt, hunchanged]
      have huntouched : ∀ l' ∈ c.touched cfg, l'.name ≠ l.name := fun l' hl' heq =>
        htouched (List.inj_on_of_nodup_map cfg.nodup (touched_subset c hl') hl heq ▸ hl')
      simp only [exec_untouched _ _ _ _ huntouched]
      exact hlimit.quiet hnone le_rfl hlimit.timely hlimit.lapsing fun d hd => hd
  | wait time hle =>
    exact hlimit.quiet rfl hle (hlimit.timely.mono hle) (hlimit.lapsing.mono hle) fun d hd => hd
  | expire name kind =>
    by_cases hname : l.name = name
    · subst hname
      simp only [Function.update_self]
      apply hlimit.quiet rfl le_rfl (hlimit.timely.expire kind) (hlimit.lapsing.expire kind)
      intro d hd
      cases kind with
      | total => exact hd
      | log =>
        rcases SortedSetKey.expire_cases s.time (s.store l.name).log with heq | ⟨heq, -⟩
        · simpa [LimitKeys.expire, heq] using hd
        · simp [LimitKeys.expire, heq] at hd
    · simp only [Function.update_of_ne hname]
      exact hlimit.quiet rfl le_rfl hlimit.timely hlimit.lapsing fun d hd => hd
  | lose name kind =>
    obtain rfl : kind = .total := hexact
    by_cases hname : l.name = name
    · subst hname
      simp only [Function.update_self]
      exact hlimit.quiet rfl le_rfl (hlimit.timely.delete .total) hlimit.lapsing.lose_total
        fun d hd => hd
    · simp only [Function.update_of_ne hname]
      exact hlimit.quiet rfl le_rfl hlimit.timely hlimit.lapsing fun d hd => hd

/-- The invariant holds in every run of executed scripts. -/
theorem fading_of_run {tr : List (Event κ ι)} {s : Server κ ι}
    (h : ((system cfg).restrict (Exact cfg)).Run tr s) :
    (∀ name, Consistent (s.store name)) ∧
      ∀ l ∈ cfg.limits, Fading l tr s.time (s.store l.name) := by
  refine System.Run.invariant (I := fun tr s => (∀ name, Consistent (s.store name)) ∧
    ∀ l ∈ cfg.limits, Fading l tr s.time (s.store l.name)) ?_ ?_ h
  · intro s hs
    have hstore : s.store = fun _ => LimitKeys.initial := hs
    rw [hstore]
    refine ⟨fun _ => consistent_initial, fun l _ => ⟨timely_initial, lapsing_initial, ?_, ?_⟩⟩
    · intro t ht
      cases ht
    · intro d hd
      cases hd
  · rintro tr s e s' - ⟨hconsistent, hfading⟩ ⟨hexact, hs⟩
    exact ⟨consistent_step hconsistent hs, fading_step hconsistent hfading hexact hs⟩

/-- **Keys expire neither early nor never.** In every run in which keys go at their deadlines and a
total may be lost at any moment, between scripts: a log has a deadline, not before any of its
entries has left the window; a total has one too, beside a log that lives as long; and both keys are
gone two windows after the limit was last charged. Executions that end with an error are left
out. -/
theorem keys_fade {tr : List (Event κ ι)} {s : Server κ ι}
    (h : ((system cfg).restrict (Exact cfg)).Run tr s)
    (hcurrent : ∀ l ∈ cfg.limits, Current s.time (s.store l.name)) :
    ∀ l ∈ cfg.limits,
      ((s.store l.name).log.value.entries ≠ [] →
        ∃ d, (s.store l.name).log.deadline = some d ∧
          ∀ e ∈ (s.store l.name).log.value.entries, e.score + l.windowMs ≤ d) ∧
      ((s.store l.name).total ≠ none → (s.store l.name).log.value.entries ≠ [] ∧
        ∃ d d', (s.store l.name).total.deadline = some d ∧
          (s.store l.name).log.deadline = some d' ∧ d ≤ d') ∧
      ((∀ t, lastCharged l tr = some t → t + l.windowMs * 2 ≤ s.time) →
        (s.store l.name).log.value.entries = [] ∧ (s.store l.name).total = none) := by
  intro l hl
  obtain ⟨htimely, hlapsing, -, hbounded⟩ := (fading_of_run h).2 l hl
  have hmortal := hlapsing.mortal (hcurrent l hl)
  -- a deadline is one of a log that exists
  have hlogged : ∀ d, (s.store l.name).log.deadline = some d →
      (s.store l.name).log.value.entries ≠ [] := by
    intro d hd hnil
    rw [(s.store l.name).log.absent hnil] at hd
    cases hd
  refine ⟨fun hne => ?_, fun hne => ?_, fun hlong => ?_⟩
  · obtain ⟨d, hd⟩ := hmortal.log hne
    exact ⟨d, hd, htimely.covered d hd⟩
  · obtain ⟨d, d', hd, hd', hle⟩ := hmortal.total hne
    exact ⟨hlogged d' hd', d, d', hd, hd', hle⟩
  · have hgone : ∀ d, (s.store l.name).log.deadline ≠ some d := by
      intro d hd
      obtain ⟨t, ht, hle⟩ := hbounded d hd
      have hlate := hlong t ht
      have hlive := (hcurrent l hl).log d hd
      omega
    refine ⟨?_, ?_⟩
    · by_contra hne
      obtain ⟨d, hd⟩ := hmortal.log hne
      exact hgone d hd
    · by_contra hne
      obtain ⟨-, d', -, hd', -⟩ := hmortal.total hne
      exact hgone d' hd'

/-- A charge of four units, a lost total, and the status call that rebuilds it half a second
later. -/
theorem keys_fade_rebuilt : ∃ s : Server ℕ ℕ, s.time = 1500 ∧ (s.store 0).total.get = some 4 ∧
    ∃ d d', (s.store 0).total.deadline = some d ∧ (s.store 0).log.deadline = some d' ∧ d ≤ d' := by
  have h₀ : ((system tenPerSecond).restrict (Exact tenPerSecond)).Run []
      (⟨1000, fun _ => LimitKeys.initial⟩ : Server ℕ ℕ) := .start rfl
  have h₁ := h₀.permit (.call _ (.acquire 7 fun _ => 4)) ⟨by decide, trivial⟩
  have h₂ := h₁.permit (.lose _ 0 .total) rfl
  have h₃ := h₂.permit (.wait _ 1500 (by decide)) trivial
  have h₄ := h₃.permit (.call _ .status) ⟨by decide, trivial⟩
  obtain ⟨-, htotal, -⟩ := keys_fade h₄ (by decide) tenUnits (List.mem_singleton_self _)
  exact ⟨_, rfl, by decide, (htotal (by decide)).2⟩

end RedisSemaphore.RateLimiter
