import RedisSemaphore.TwoRuns
import RedisSemaphore.RateLimiter.Accounting
import RedisSemaphore.RateLimiter.Expiry

/-!
# Denials and status calls

A denied acquire stops after the first loop, which evicts limit by limit: exactly what a status
does. Two limiters that differ by evictions have the same entries inside every window (`Alike`), and
with settled accounts these decide every figure and every wait a script reports.
-/

namespace RedisSemaphore.RateLimiter

open Redis KeyedLoop Transition

variable {κ ι : Type*} [LinearOrder (Member ι)]

/-! ## Limits with the same entries in the window -/

/-- The same entries after `cutoff`. -/
def Alike (cutoff : ℤ) (a b : LimitKeys ι) : Prop :=
  ∀ e : Scored (Member ι), cutoff < e.score →
    (e ∈ a.log.value.entries ↔ e ∈ b.log.value.entries)

section Alike

variable {cutoff cutoff' time ttlMs : ℤ} {a b c : LimitKeys ι}

/-- A log looks like itself. -/
theorem Alike.refl (a : LimitKeys ι) : Alike cutoff a a := fun _ _ => Iff.rfl

/-- Which of the two is first does not matter. -/
theorem Alike.symm (h : Alike cutoff a b) : Alike cutoff b a := fun e he => (h e he).symm

/-- Two logs that look like a third look alike. -/
theorem Alike.trans (h : Alike cutoff a b) (h' : Alike cutoff b c) : Alike cutoff a c :=
  fun e he => (h e he).trans (h' e he)

/-- Later there is less to look at. -/
theorem Alike.mono (h : Alike cutoff a b) (hle : cutoff ≤ cutoff') : Alike cutoff' a b :=
  fun e he => h e (lt_of_le_of_lt hle he)

/-- Equal logs look alike, whatever the totals and the deadlines. -/
theorem alike_of_log_eq (h : a.log.value = b.log.value) : Alike cutoff a b :=
  fun e _ => by rw [h]

/-- Eviction takes away what is outside the window. -/
theorem alike_evict (a : LimitKeys ι) : Alike cutoff (evict time cutoff ttlMs a).2 a := by
  intro e he
  rw [mem_log_evict]
  exact and_iff_left he

/-- After an eviction the logs are the same. -/
theorem Alike.evict (h : Alike cutoff a b) :
    (evict time cutoff ttlMs a).2.log.value = (evict time cutoff ttlMs b).2.log.value := by
  apply SortedSet.ext_mem
  intro e
  rw [mem_log_evict, mem_log_evict]
  exact and_congr_left (h e)

/-- A key drops out at its deadline, when everything in it has left the window. -/
theorem alike_expire {l : Limit κ} (h : Timely l time a) (kind : KeyKind) :
    Alike (time - l.windowMs) (a.expire kind time) a :=
  fun _ he => ⟨mem_of_mem_expire, fun hmem => h.mem_expire kind hmem he⟩

/-- Whatever a script does to a limit, it leaves the same log on both. -/
theorem Alike.onLimit {l : Limit κ} (h : Alike (time - l.windowMs) a b) (call : Call κ ι)
    (admitted : Bool) :
    (call.onLimit admitted time l a).2.log.value =
      (call.onLimit admitted time l b).2.log.value := by
  apply SortedSet.ext_mem
  intro e
  -- every call evicts first, and the two logs are the same from there on
  cases call with
  | acquire identifier cost =>
    have hevict : ∀ {cutoff ttlMs : ℤ}, cutoff = time - l.windowMs →
        (RateLimiter.evict time cutoff ttlMs a).2.log.value
          = (RateLimiter.evict time cutoff ttlMs b).2.log.value := by
      rintro cutoff ttlMs rfl
      exact h.evict
    cases admitted with
    | false =>
      simp only [Call.onLimit, Bool.false_eq_true, if_false]
      rw [hevict rfl]
    | true =>
      simp only [Call.onLimit, if_true]
      rw [mem_log_recordLimit _ _ _ _ ⟨l.name, l.limit, l.windowMs, cost l.name⟩ _ l.window_pos,
        mem_log_recordLimit _ _ _ _ ⟨l.name, l.limit, l.windowMs, cost l.name⟩ _ l.window_pos,
        hevict rfl]
  | adjust identifier acquiredAt change =>
    simp only [Call.onLimit]
    rw [mem_log_adjustLimit _ _ _ _ ⟨l.name, l.windowMs, _, _⟩ _ l.window_pos,
      mem_log_adjustLimit _ _ _ _ ⟨l.name, l.windowMs, _, _⟩ _ l.window_pos]
    refine or_congr_right (and_congr_right fun _ => and_congr_right fun _ => ?_)
    exact and_congr_left (h e)
  | status =>
    simp only [Call.onLimit]
    rw [h.evict]

/-- The figures are the sums of the logs, so they are the same as well. -/
theorem Alike.figure {l : Limit κ} (h : Alike (time - l.windowMs) a b) (ha : Consistent a)
    (hb : Consistent b) (call : Call κ ι) (admitted : Bool) :
    (call.onLimit admitted time l a).1 = (call.onLimit admitted time l b).1 := by
  rw [(onLimit_accounted ha).2, (onLimit_accounted hb).2, h.onLimit]

end Alike

/-! ## One call on both -/

section Both

variable [DecidableEq κ] {cfg : Config κ} {time : ℤ} {store store' : κ → LimitKeys ι}

/-- The first loop of an acquire depends on what its evictions return. -/
theorem retryAfter_congr (identifier : ι) (nowMs : ℤ) {args : List (AcquireArg κ)}
    (hnodup : (args.map AcquireArg.name).Nodup) (check check' : Check κ ι)
    (hretry : check.retryAfter = check'.retryAfter) (halready : check.already = check'.already)
    (hsum : ∀ a ∈ args,
      (evict time (nowMs - a.windowMs) (a.windowMs * 2) (check.store a.name)).1 =
        (evict time (nowMs - a.windowMs) (a.windowMs * 2) (check'.store a.name)).1)
    (hlog : ∀ a ∈ args,
      (evict time (nowMs - a.windowMs) (a.windowMs * 2) (check.store a.name)).2.log.value =
        (evict time (nowMs - a.windowMs) (a.windowMs * 2) (check'.store a.name)).2.log.value) :
    (args.foldl (fun check a => checkLimit identifier nowMs time a check) check).retryAfter =
      (args.foldl (fun check a => checkLimit identifier nowMs time a check) check').retryAfter := by
  -- a round changes the keys of its own limit, so the later rounds find theirs as they were
  induction args generalizing check check' with
  | nil => exact hretry
  | cons a rest ih =>
    rw [List.map_cons, List.nodup_cons] at hnodup
    rw [List.forall_mem_cons] at hsum hlog
    have hstore : ∀ (check : Check κ ι), ∀ b ∈ rest,
        (checkLimit identifier nowMs time a check).store b.name = check.store b.name := by
      intro check b hb
      have hne : b.name ≠ a.name := fun heq => hnodup.1 (heq ▸ List.mem_map_of_mem hb)
      simp only [checkLimit, Function.update_of_ne hne]
    rw [List.foldl_cons, List.foldl_cons]
    refine ih hnodup.2 _ _ ?_ ?_ ?_ ?_
    · simp only [checkLimit, hsum.1, hlog.1, hretry, halready]
    · simp only [checkLimit, hlog.1, halready]
    · intro b hb
      rw [hstore check b hb, hstore check' b hb]
      exact hsum.2 b hb
    · intro b hb
      rw [hstore check b hb, hstore check' b hb]
      exact hlog.2 b hb

variable (cfg time store) in
/-- The reply of an acquire, apart from the figures, is the outcome of the first loop. -/
theorem reply_acquire (identifier : ι) (cost : κ → ℕ) : ∃ used,
    (exec cfg (.acquire identifier cost) time store).1 =
      .acquire ⟨
        decide ((checkLimits identifier time time (acquireArgs cfg cost) store).retryAfter ≤ 0),
        (checkLimits identifier time time (acquireArgs cfg cost) store).retryAfter, time,
        used⟩ := by
  simp only [exec, rateAcquire]
  split
  · rename_i hpos
    rw [decide_eq_false (not_le.mpr hpos)]
    exact ⟨_, rfl⟩
  · rename_i hpos
    rw [decide_eq_true (not_lt.mp hpos)]
    exact ⟨_, rfl⟩

/-- The figures of a script, limit by limit. -/
theorem figures_eq (call : Call κ ι) :
    (exec cfg call time store).1.figures = (call.touched cfg).map fun l =>
      (call.onLimit (exec cfg call time store).1.admitted time l (store l.name)).1 := by
  obtain ⟨hfigures, -⟩ := Prod.ext_iff.mp (exec_eq_loop cfg time store call)
  exact hfigures.trans (loop_answers (touched_nodup cfg call))

/-- **Scripts answer the same** on limiters with the same entries in every window. -/
theorem reply_congr
    (halike : ∀ l ∈ cfg.limits, Alike (time - l.windowMs) (store l.name) (store' l.name))
    (hstore : ∀ name, Consistent (store name)) (hstore' : ∀ name, Consistent (store' name))
    (call : Call κ ι) : (exec cfg call time store).1 = (exec cfg call time store').1 := by
  have hfigures : (exec cfg call time store).1.admitted = (exec cfg call time store').1.admitted →
      (exec cfg call time store).1.figures = (exec cfg call time store').1.figures := by
    intro hadmitted
    rw [figures_eq, figures_eq, hadmitted]
    refine List.map_congr_left fun l hl => ?_
    exact (halike l (touched_subset call hl)).figure (hstore _) (hstore' _) call _
  cases call with
  | acquire identifier cost =>
    have hretry : (checkLimits identifier time time (acquireArgs cfg cost) store).retryAfter =
        (checkLimits identifier time time (acquireArgs cfg cost) store').retryAfter := by
      have hargs : ∀ a ∈ acquireArgs cfg cost,
          Alike (time - a.windowMs) (store a.name) (store' a.name) := by
        intro a ha
        obtain ⟨l, hl, rfl⟩ := List.mem_map.mp ha
        exact halike l hl
      refine retryAfter_congr identifier time (acquireArgs_nodup cfg cost) _ _ rfl rfl ?_ ?_
      · intro a ha
        rw [(evict_accounted _ _ _ (hstore a.name)).2, (evict_accounted _ _ _ (hstore' a.name)).2]
        exact congrArg (fun z => sumCosts z.entries) (hargs a ha).evict
      · intro a ha
        exact (hargs a ha).evict
    obtain ⟨used, hreply⟩ := reply_acquire cfg time store identifier cost
    obtain ⟨used', hreply'⟩ :=
      reply_acquire cfg time store' identifier cost
    rw [hreply, hreply', hretry] at hfigures ⊢
    obtain rfl : used = used' := hfigures rfl
    rfl
  | adjust identifier acquiredAt change => exact congrArg Reply.used (hfigures rfl)
  | status => exact congrArg Reply.used (hfigures rfl)

/-- A script leaves the same entries in every window. -/
theorem store_congr
    (halike : ∀ l ∈ cfg.limits, Alike (time - l.windowMs) (store l.name) (store' l.name))
    {call : Call κ ι} (hreply : (exec cfg call time store).1 = (exec cfg call time store').1) :
    ∀ l ∈ cfg.limits, Alike (time - l.windowMs) ((exec cfg call time store).2 l.name)
      ((exec cfg call time store').2 l.name) := by
  intro l hl
  by_cases htouched : ∃ l' ∈ call.touched cfg, l'.name = l.name
  · obtain ⟨l', hl', hname⟩ := htouched
    obtain rfl : l' = l :=
      List.inj_on_of_nodup_map cfg.nodup (touched_subset call hl') hl hname
    rw [exec_touched _ _ _ _ hl', exec_touched _ _ _ _ hl', hreply]
    exact alike_of_log_eq ((halike l' hl).onLimit call _)
  · push Not at htouched
    rw [exec_untouched _ _ _ _ htouched, exec_untouched _ _ _ _ htouched]
    exact halike l hl

/-- A denied acquire leaves what a status leaves, and reports the same figures. -/
theorem exec_denied {identifier : ι} {cost : κ → ℕ}
    (h : (exec cfg (.acquire identifier cost) time store).1.admitted = false) :
    (exec cfg (.acquire identifier cost) time store).2 = (exec cfg .status time store).2 ∧
      (exec cfg (.acquire identifier cost) time store).1.figures
        = (exec cfg .status time store).1.figures := by
  obtain ⟨hfigures, hstore⟩ := Prod.ext_iff.mp
    (exec_eq_loop cfg time store (.acquire identifier cost))
  obtain ⟨hfigures', hstore'⟩ := Prod.ext_iff.mp
    (exec_eq_loop cfg time store (.status : Call κ ι))
  rw [h] at hfigures hstore
  exact ⟨hstore.trans hstore'.symm, hfigures.trans hfigures'.symm⟩

end Both

/-! ## Inserting denials and status calls -/

/-- A status, or an acquire that is denied. -/
def Observer : Call κ ι → Reply → Prop
  | .status, _ => True
  | .acquire _ _, .acquire reply => reply.success = false
  | _, _ => False

/-- The entries of a run and the same run with such calls inserted: a call made in both at the same
time, a log lost in both, an observer in the second, and in either the clock, the expiry of a key
and the loss of a total. -/
def Inserts : Paired (Event κ ι) → Prop
  | .both (.call t c _) (.call t' c' _) => t = t' ∧ c = c'
  | .both (.lose name kind) (.lose name' kind') => name = name' ∧ kind = kind'
  | .first (.wait _) => True
  | .first (.expire _ _) => True
  | .first (.lose _ kind) => kind = .total
  | .second (.call _ c r) => Observer c r
  | .second (.wait _) => True
  | .second (.expire _ _) => True
  | .second (.lose _ kind) => kind = .total
  | _ => False

variable [DecidableEq κ] {cfg : Config κ}

/-- All that a denied acquire does is what a status would have done. -/
theorem exec_observer {c : Call κ ι} {t : ℤ} {store : κ → LimitKeys ι}
    (h : Observer c (exec cfg c t store).1) :
    (exec cfg c t store).2 = (exec cfg (.status : Call κ ι) t store).2 := by
  cases c with
  | acquire identifier cost =>
    refine (exec_denied ?_).1
    obtain ⟨used, hreply⟩ := reply_acquire cfg t store identifier cost
    rw [hreply] at h ⊢
    exact h
  | adjust identifier acquiredAt change => exact h.elim
  | status => rfl

/-- The two limiters have the same entries in every window of the later clock. -/
def Twin (cfg : Config κ) (s s' : Server κ ι) : Prop :=
  ∀ l ∈ cfg.limits, Alike (max s.time s'.time - l.windowMs) (s.store l.name) (s'.store l.name)

section Twin

variable {s s' : Server κ ι}

/-- One limit of one of the two changes outside its window. -/
theorem Twin.update_left (h : Twin cfg s s') (name : κ) {keys : LimitKeys ι}
    (hkeys : ∀ l ∈ cfg.limits, l.name = name →
      Alike (max s.time s'.time - l.windowMs) keys (s.store name)) :
    Twin cfg { s with store := Function.update s.store name keys } s' := by
  intro l hl
  by_cases hname : l.name = name
  · simp only [hname, Function.update_self]
    exact (hkeys l hl hname).trans (hname ▸ h l hl)
  · simp only [Function.update_of_ne hname]
    exact h l hl

omit [DecidableEq κ] in
/-- Which of the two servers is first does not matter. -/
theorem Twin.symm (h : Twin cfg s s') : Twin cfg s' s := by
  intro l hl
  rw [max_comm]
  exact (h l hl).symm

/-- The clock, an expiry and the loss of a total, in one of the two. -/
theorem Twin.clock (h : Twin cfg s s')
    (htimely : ∀ l ∈ cfg.limits, Timely l s.time (s.store l.name))
    {e : Event κ ι} {u : Server κ ι} (he : Inserts (.first e)) (hs : Step cfg s e u) :
    Twin cfg u s' := by
  cases hs with
  | call c => exact he.elim
  | wait time hle =>
    exact fun l hl => (h l hl).mono (sub_le_sub_right (max_le_max_right _ hle) _)
  | expire name kind =>
    refine h.update_left name fun l hl hname => ?_
    have hexpire := alike_expire (htimely l hl) kind
    rw [hname] at hexpire
    exact hexpire.mono (sub_le_sub_right (le_max_left _ _) _)
  | lose name kind =>
    obtain rfl : kind = .total := he
    exact h.update_left name fun l hl hname => alike_of_log_eq rfl

/-- A call made in both runs. -/
theorem Twin.call (h : Twin cfg s s') (htime : s.time = s'.time)
    (hstore : ∀ name, Consistent (s.store name)) (hstore' : ∀ name, Consistent (s'.store name))
    (c : Call κ ι) :
    (exec cfg c s.time s.store).1 = (exec cfg c s'.time s'.store).1 ∧
      Twin cfg { s with store := (exec cfg c s.time s.store).2 }
        { s' with store := (exec cfg c s'.time s'.store).2 } := by
  have halike : ∀ l ∈ cfg.limits,
      Alike (s.time - l.windowMs) (s.store l.name) (s'.store l.name) := by
    intro l hl
    have hl := h l hl
    rwa [← htime, max_self] at hl
  rw [← htime]
  have hreply := reply_congr halike hstore hstore' c
  refine ⟨hreply, fun l hl => ?_⟩
  simp only [max_self]
  exact store_congr halike hreply l hl

/-- A call of an observer in the second run. -/
theorem Twin.observe (h : Twin cfg s s') {c : Call κ ι}
    (hc : Observer c (exec cfg c s'.time s'.store).1) :
    Twin cfg s { s' with store := (exec cfg c s'.time s'.store).2 } := by
  intro l hl
  have hevict := exec_touched cfg s'.time s'.store (.status : Call κ ι) hl
  rw [exec_observer hc]
  simp only [hevict, Call.onLimit]
  exact (h l hl).trans ((alike_evict _).symm.mono (sub_le_sub_right (le_max_right _ _) _))

/-- A limit loses the same key in both. -/
theorem Twin.lose (h : Twin cfg s s') (name : κ) (kind : KeyKind) :
    Twin cfg { s with store := Function.update s.store name ((s.store name).delete kind) }
      { s' with store := Function.update s'.store name ((s'.store name).delete kind) } := by
  intro l hl
  by_cases hname : l.name = name
  · subst hname
    simp only [Function.update_self]
    cases kind with
    | log => exact alike_of_log_eq rfl
    | total => exact h l hl
  · simp only [Function.update_of_ne hname]
    exact h l hl

end Twin

omit [LinearOrder (Member ι)] [DecidableEq κ] in
/-- Adjusts of the second run are adjusts of the first. -/
theorem pastAdjust_rights {w : List (Paired (Event κ ι))} (hw : ∀ x ∈ w, Inserts x)
    (hpast : ∀ e ∈ lefts w, PastAdjust e) : ∀ e ∈ rights w, PastAdjust e := by
  intro e he
  obtain ⟨x, hx, hright⟩ := List.mem_filterMap.mp he
  have hins := hw x hx
  cases x with
  | first e' => cases hright
  | second e' =>
    obtain rfl := Option.some.inj hright
    cases e' with
    | call t c r =>
      cases c with
      | adjust identifier acquiredAt change => exact hins.elim
      | _ => trivial
    | _ => trivial
  | both e₁ e₂ =>
    obtain rfl := Option.some.inj hright
    have hleft := hpast e₁ (List.mem_filterMap.mpr ⟨_, hx, rfl⟩)
    cases e₂ with
    | call t' c' r' =>
      cases e₁ with
      | call t c r =>
        obtain ⟨rfl, rfl⟩ := hins
        cases c with
        | adjust identifier acquiredAt change => exact hleft
        | _ => trivial
      | _ => exact hins.elim
    | _ => trivial

/-- What two runs side by side have in common. -/
def Unchanged (cfg : Config κ) (w : List (Paired (Event κ ι))) (s s' : Server κ ι) : Prop :=
  (∀ x ∈ w, Inserts x) → (∀ e ∈ lefts w, PastAdjust e) →
    Twin cfg s s' ∧ ∀ t c r r', .both (.call t c r) (.call t c r') ∈ w → r = r'

/-- Two runs side by side stay twins, and every call of the first is answered the same. -/
theorem unchanged_of_runs {w : List (Paired (Event κ ι))} {s s' : Server κ ι}
    (h : (system cfg).Run (lefts w) s) (h' : (system cfg).Run (rights w) s') :
    Unchanged cfg w s s' := by
  refine two_runs (M := system cfg) (R := Unchanged cfg) ?_ ?_ ?_ ?_ s s' h h'
  · intro s s' hs hs' _ _
    refine ⟨?_, by simp⟩
    intro l hl
    rw [hs, hs']
    exact Alike.refl _
  -- an event of both: the same call at the same time, or the same loss
  · intro w s s' e e' u u' hrun hrun' ih hstep hstep' hw hpast
    rw [List.forall_mem_cons] at hw
    rw [lefts_both, List.forall_mem_cons] at hpast
    obtain ⟨htwin, hsame⟩ := ih hw.2 hpast.2
    -- a call of an observer in the second run alone, the clock, or an expiry
    cases hstep with
    | call c =>
      cases hstep' with
      | call c' =>
        obtain ⟨htime, rfl⟩ := hw.1
        obtain ⟨hreply, htwin'⟩ :=
          htwin.call htime (consistent_of_run hrun) (consistent_of_run hrun') c
        refine ⟨htwin', ?_⟩
        intro t c₁ r r' hmem
        rcases List.mem_cons.mp hmem with heq | hmem
        · obtain ⟨heq₁, heq₂⟩ := Paired.both.inj heq
          obtain ⟨-, -, rfl⟩ := Event.call.inj heq₁
          obtain ⟨-, -, rfl⟩ := Event.call.inj heq₂
          exact hreply
        · exact hsame t c₁ r r' hmem
      | wait time hle => exact hw.1.elim
      | expire name kind => exact hw.1.elim
      | lose name kind => exact hw.1.elim
    | wait time hle => exact hw.1.elim
    | expire name kind => exact hw.1.elim
    | lose name kind =>
      cases hstep' with
      | call c' => exact hw.1.elim
      | wait time hle => exact hw.1.elim
      | expire name' kind' => exact hw.1.elim
      | lose name' kind' =>
        obtain ⟨rfl, rfl⟩ := hw.1
        refine ⟨htwin.lose name kind, ?_⟩
        intro t c r r' hmem
        exact hsame t c r r' (by simpa using hmem)
  -- the clock or an expiry in the first run alone
  · intro w s s' e u hrun _ ih hstep hw hpast
    rw [List.forall_mem_cons] at hw
    rw [lefts_first, List.forall_mem_cons] at hpast
    obtain ⟨htwin, hsame⟩ := ih hw.2 hpast.2
    refine ⟨htwin.clock (timely_of_run hrun hpast.2) hw.1 hstep, ?_⟩
    intro t c r r' hmem
    exact hsame t c r r' (by simpa using hmem)
  · intro w s s' e u _ hrun' ih hstep hw hpast
    rw [List.forall_mem_cons] at hw
    obtain ⟨htwin, hsame⟩ := ih hw.2 hpast
    refine ⟨?_, fun t c r r' hmem => hsame t c r r' (by simpa using hmem)⟩
    have htimely := timely_of_run hrun' (pastAdjust_rights hw.2 hpast)
    cases hstep with
    | call c => exact htwin.observe hw.1
    | wait time hle => exact (htwin.symm.clock htimely (by exact trivial) (.wait _ time hle)).symm
    | expire name kind =>
      exact (htwin.symm.clock htimely (by exact trivial) (.expire _ name kind)).symm
    | lose name kind => exact (htwin.symm.clock htimely (by exact hw.1) (.lose _ name kind)).symm

variable (cfg) in
/-- **Denials and status calls leave no trace.** A denied acquire leaves exactly the keys a status
would leave and reports the same figures; and a run into which such calls are inserted answers every
call it had as before. -/
theorem denials_leave_no_trace :
    (∀ (tr : List (Event κ ι)) (s : Server κ ι) (identifier : ι) (cost : κ → ℕ),
      (system cfg).Run tr s →
      (exec cfg (.acquire identifier cost) s.time s.store).1.admitted = false →
      (exec cfg (.acquire identifier cost) s.time s.store).2
          = (exec cfg .status s.time s.store).2 ∧
        (exec cfg (.acquire identifier cost) s.time s.store).1.figures
          = (exec cfg .status s.time s.store).1.figures) ∧
    ∀ (w : List (Paired (Event κ ι))) (s s' : Server κ ι), (system cfg).Run (lefts w) s →
      (system cfg).Run (rights w) s' → (∀ x ∈ w, Inserts x) → (∀ e ∈ lefts w, PastAdjust e) →
      ∀ t c r r', .both (.call t c r) (.call t c r') ∈ w → r = r' := by
  refine ⟨fun tr s identifier cost _ hdenied => exec_denied hdenied, ?_⟩
  intro w s s' h h' hw hpast
  exact (unchanged_of_runs h h' hw hpast).2

/-- The limiter of ten units per second after a charge of four. -/
def charged : Server ℕ ℕ :=
  ⟨1000, (exec tenPerSecond (.acquire 7 fun _ => 4) 1000 fun _ => LimitKeys.initial).2⟩

/-- Then seven more units are asked for. -/
def overcharged : Server ℕ ℕ :=
  ⟨1000, (exec tenPerSecond (.acquire 8 fun _ => 7) 1000 charged.store).2⟩

/-- A charge and a status, with the second request between them. -/
def deniedBetween : List (Paired (Event ℕ ℕ)) :=
  [.both (.call 1000 .status (exec tenPerSecond .status 1000 charged.store).1)
      (.call 1000 .status (exec tenPerSecond .status 1000 overcharged.store).1),
    .second (.call 1000 (.acquire 8 fun _ => 7)
      (exec tenPerSecond (.acquire 8 fun _ => 7) 1000 charged.store).1),
    .both (.call 1000 (.acquire 7 fun _ => 4) (.acquire ⟨true, 0, 1000, [4]⟩))
      (.call 1000 (.acquire 7 fun _ => 4) (.acquire ⟨true, 0, 1000, [4]⟩))]

/-- The seven units are denied, and the status is answered as it would have been. -/
theorem denials_leave_no_trace_charged :
    overcharged.store = (exec tenPerSecond .status 1000 charged.store).2 ∧
      (exec tenPerSecond .status 1000 charged.store).1
        = (exec tenPerSecond .status 1000 overcharged.store).1 := by
  have hstart : (system tenPerSecond).Run [] (⟨1000, fun _ => LimitKeys.initial⟩ : Server ℕ ℕ) :=
    .start rfl
  have hcharged := hstart.step (.call _ (.acquire 7 fun _ => 4))
  have hstatus : (system tenPerSecond).Run (lefts deniedBetween) _ :=
    hcharged.step (.call _ .status)
  have hdenied : (system tenPerSecond).Run (rights deniedBetween) _ :=
    (hcharged.step (.call _ (.acquire 8 fun _ => 7))).step (.call _ .status)
  have hins : ∀ x ∈ deniedBetween, Inserts x := by
    intro x hx
    simp only [deniedBetween, List.mem_cons, List.not_mem_nil, or_false] at hx
    rcases hx with rfl | rfl | rfl
    · exact ⟨rfl, rfl⟩
    · exact (by decide : (exec tenPerSecond (.acquire 8 fun _ => 7) 1000
        charged.store).1.admitted = false)
    · exact ⟨rfl, rfl⟩
  have hpast : ∀ e ∈ lefts deniedBetween, PastAdjust e := by
    intro e he
    simp only [deniedBetween, lefts_both, lefts_second, List.mem_cons] at he
    rcases he with rfl | rfl | he
    · trivial
    · trivial
    · cases he
  obtain ⟨htrace, hsame⟩ := denials_leave_no_trace (ι := ℕ) tenPerSecond
  exact ⟨(htrace _ _ 8 (fun _ => 7) hcharged (by decide)).1,
    hsame _ _ _ hstatus hdenied hins hpast 1000 .status _ _ (List.mem_cons_self ..)⟩

end RedisSemaphore.RateLimiter
