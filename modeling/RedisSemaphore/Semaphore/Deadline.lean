import Mathlib.Algebra.Order.Archimedean.Basic
import Mathlib.Data.Rat.Floor
import Mathlib.Tactic.Linarith
import RedisSemaphore.Semaphore.Instance

/-!
# The loss deadline of the heartbeat

`_heartbeat_loop` and `_heartbeat_loop_async` against a real-time clock. Times and durations are
rationals in seconds. Only the network takes time: what the loop does between a sleep and a request
takes none, so a loop that only meets errors declares the loss at a moment that can be computed
(`lostAt_max`), and one whose attempts take no time either goes by the exact rule of `escalation`.
`conservative_iff` compares the moment of the loss with the expiry on the server.
-/

namespace RedisSemaphore.Deadline

/-! ## The loop -/

/-- The arguments of a `Heartbeat` that decide when it wakes. A configuration accepts positive
intervals only. -/
structure Heartbeat where
  interval : ℚ
  retryStep : ℚ
  lockTimeout : Option ℚ
  interval_pos : 0 < interval
  retryStep_pos : 0 < retryStep

/-- The local variables of the loop in its sleep, which ends at `wake`. -/
structure Beat where
  deadline : Option ℚ
  step : ℚ
  wake : ℚ

/-- How a refresh ends: with an expiry, with a zero, or with an exception. -/
inductive Answer
  | renewed
  | gone
  | failed (fatal : Bool)
  deriving DecidableEq, Repr

/-- The loop begins at `now`. -/
def start (h : Heartbeat) (now : ℚ) : Beat :=
  ⟨h.lockTimeout.map (now + ·), h.interval, now + h.interval⟩

/-- One round: the sleep ends, a refresh is made and answered at `now`. `none` is the call of
`_mark_lost_sync`, which ends the loop. -/
def round (h : Heartbeat) (b : Beat) (now : ℚ) : Answer → Option Beat
  | .failed fatal =>
    if fatal then none
    else match b.deadline with
      | none => some { b with wake := now + b.step }
      | some deadline =>
        if deadline ≤ now then none
        else
          let step := min h.retryStep (deadline - now)
          some { b with step := step, wake := now + step }
  | .gone => none
  | .renewed =>
    match h.lockTimeout with
    | none => some { b with wake := now + b.step }
    | some lockTimeout => some ⟨some (b.wake + lockTimeout), h.interval, now + h.interval⟩

/-- `_mark_lost_sync` calls `on_lost`, after which the instance is not acquired. -/
theorem onLost_not_acquired {ι : Type*} (s : Client.Instance ι) (api : Client.Api) :
    (s.onLost api).state ≠ .acquired := by
  rw [Client.Instance.onLost]
  split
  · simp [Client.Instance.lose]
  · assumption

/-- The loop declares the loss at `t` if every refresh from now on fails instantly with an error it
tolerates. -/
inductive LostAt (h : Heartbeat) : Beat → ℚ → Prop
  | now {b : Beat} (hround : round h b b.wake (.failed false) = none) : LostAt h b b.wake
  | later {b b' : Beat} {t : ℚ} (hround : round h b b.wake (.failed false) = some b')
      (hlost : LostAt h b' t) : LostAt h b t

/-- The states of a loop, with the time from which its deadline is counted: its start, or the start
of its last successful attempt. -/
inductive Reaches (h : Heartbeat) : ℚ → Beat → Prop
  | start (now : ℚ) : Reaches h now (start h now)
  | renewed {basis now : ℚ} {b b' : Beat} (hb : Reaches h basis b) (hle : b.wake ≤ now)
      (hround : round h b now .renewed = some b') : Reaches h b.wake b'
  | failed {basis now : ℚ} {b b' : Beat} (hb : Reaches h basis b) (hle : b.wake ≤ now)
      (hround : round h b now (.failed false) = some b') : Reaches h basis b'

section Loop

variable {h : Heartbeat} {b b' : Beat} {now d : ℚ}

/-- A failed attempt at or after the deadline ends the loop. -/
theorem round_failed_of_le (hd : b.deadline = some d) (hle : d ≤ now) :
    round h b now (.failed false) = none := by
  simp [round, hd, hle]

/-- One before it is tried again, at the deadline at the latest. -/
theorem round_failed_of_lt (hd : b.deadline = some d) (hlt : now < d) :
    round h b now (.failed false) =
      some { b with
        step := min h.retryStep (d - now)
        wake := now + min h.retryStep (d - now) } := by
  simp [round, hd, not_le.mpr hlt]

/-- **The moment of the loss**: the next attempt, or the deadline if that is later. -/
theorem lostAt_max (hd : b.deadline = some d) : LostAt h b (max b.wake d) := by
  obtain ⟨n, hn⟩ := exists_nat_ge ((d - b.wake) / h.retryStep)
  rw [div_le_iff₀ h.retryStep_pos] at hn
  induction n generalizing b with
  | zero =>
    have hle : d ≤ b.wake := by
      simp only [Nat.cast_zero, zero_mul] at hn
      linarith
    rw [max_eq_left hle]
    exact .now (round_failed_of_le hd hle)
  | succ n ih =>
    by_cases hle : d ≤ b.wake
    · rw [max_eq_left hle]
      exact .now (round_failed_of_le hd hle)
    · have hlt := not_le.mp hle
      have hround := round_failed_of_lt (h := h) hd hlt
      set step := min h.retryStep (d - b.wake) with hstep
      -- the next attempt is not after the deadline, and one retry step closer to it
      have hwake : b.wake + step ≤ d := by
        have := min_le_right h.retryStep (d - b.wake)
        linarith
      have hcloser : d - (b.wake + step) ≤ n * h.retryStep := by
        push_cast at hn
        rcases min_choice h.retryStep (d - b.wake) with hmin | hmin
        · linarith
        · have := mul_nonneg (Nat.cast_nonneg (α := ℚ) n) h.retryStep_pos.le
          linarith
      have hlost : LostAt h { b with step := step, wake := b.wake + step }
          (max (b.wake + step) d) := ih hd hcloser
      rw [max_eq_right hwake] at hlost
      rw [max_eq_right hlt.le]
      exact .later hround hlost

/-- The loss is declared once. -/
theorem LostAt.unique {t t' : ℚ} (ht : LostAt h b t) (ht' : LostAt h b t') : t = t' := by
  induction ht with
  | now hround =>
    cases ht' with
    | now hround' => rfl
    | later hround' hlost => simp [hround] at hround'
  | later hround hlost ih =>
    cases ht' with
    | now hround' => simp [hround] at hround'
    | later hround' hlost' =>
      rw [hround, Option.some.injEq] at hround'
      subst hround'
      exact ih hlost'

/-- The deadline is one lock timeout after the time it is counted from. -/
theorem Reaches.deadline {basis lockTimeout : ℚ} (hL : h.lockTimeout = some lockTimeout)
    (hb : Reaches h basis b) : b.deadline = some (basis + lockTimeout) := by
  induction hb with
  | start now => simp [Deadline.start, hL]
  | renewed hb hle hround ih =>
    simp only [round, hL, Option.some.injEq] at hround
    rw [← hround]
  | failed hb hle hround ih =>
    simp only [round, ih, Bool.false_eq_true, if_false] at hround
    split at hround
    · cases hround
    · rw [Option.some.injEq] at hround
      rw [← hround]

end Loop

/-! ## Attempts that take no time -/

/-- A loop with the time of its last success, or of its start. -/
structure Watch where
  basis : ℚ
  beat : Beat

/-- The loop begins. -/
def begin (h : Heartbeat) (now : ℚ) : Watch :=
  ⟨now, start h now⟩

/-- One attempt, made and answered when the sleep ends. -/
def attempt (h : Heartbeat) (w : Watch) (answer : Answer) : Option Watch :=
  (round h w.beat w.beat.wake answer).map fun b =>
    ⟨if answer = .renewed then w.beat.wake else w.basis, b⟩

/-- What a sequence of attempts has come to. -/
inductive Verdict
  | alive (w : Watch)
  | lost (t : ℚ)

/-- The attempts of a loop, oldest first. A loop that has declared the loss makes no more. -/
def attempts (h : Heartbeat) (w : Watch) : List Answer → Verdict
  | [] => .alive w
  | answer :: later =>
    match attempt h w answer with
    | none => .lost w.beat.wake
    | some w' => attempts h w' later

section Attempts

variable {h : Heartbeat} {w w' : Watch} {lockTimeout : ℚ}

/-- The deadline counts from the last success. Whatever has failed since then, failures alone end
the loop at the deadline or at the first attempt, the later of the two. -/
structure Watch.Budgeted (h : Heartbeat) (lockTimeout : ℚ) (w : Watch) : Prop where
  deadline : w.beat.deadline = some (w.basis + lockTimeout)
  wake : max w.beat.wake (w.basis + lockTimeout) =
    max (w.basis + lockTimeout) (w.basis + h.interval)

/-- A round that begins has its whole budget. -/
theorem budgeted_begin (hL : h.lockTimeout = some lockTimeout) (now : ℚ) :
    (begin h now).Budgeted h lockTimeout where
  deadline := by
    unfold begin start
    simp [hL]
  wake := by
    unfold begin start
    exact max_comm _ _

/-- An answer that renews begins the next round. -/
theorem attempt_renewed (hL : h.lockTimeout = some lockTimeout) :
    attempt h w .renewed = some (begin h w.beat.wake) := by
  unfold attempt round begin start
  simp [hL]

/-- An attempt that does not end the loop keeps the budget, or starts it again. -/
theorem Watch.Budgeted.next {answer : Answer} (hL : h.lockTimeout = some lockTimeout)
    (hw : w.Budgeted h lockTimeout) (hnext : attempt h w answer = some w') :
    w'.Budgeted h lockTimeout := by
  cases answer with
  | renewed =>
    rw [attempt_renewed hL, Option.some.injEq] at hnext
    rw [← hnext]
    exact budgeted_begin hL _
  | gone => cases hnext
  | failed fatal =>
    cases fatal with
    | true => cases hnext
    | false =>
      by_cases hle : w.basis + lockTimeout ≤ w.beat.wake
      · unfold attempt at hnext
        rw [round_failed_of_le hw.deadline hle] at hnext
        cases hnext
      · have hlt := not_le.mp hle
        unfold attempt at hnext
        rw [round_failed_of_lt hw.deadline hlt] at hnext
        simp only [Option.map_some, reduceCtorEq, if_false, Option.some.injEq] at hnext
        -- the next attempt is not after the deadline, and neither was the first one
        have hwake := hw.wake
        rw [max_eq_right hlt.le] at hwake
        have hcap := min_le_right h.retryStep (w.basis + lockTimeout - w.beat.wake)
        rw [← hnext]
        refine ⟨hw.deadline, ?_⟩
        show max (w.beat.wake + _) (w.basis + lockTimeout) = _
        rw [← hwake]
        apply max_eq_right
        linarith

/-- Whatever the answers, a loop that goes on has kept to its budget. -/
theorem Watch.Budgeted.after {answers : List Answer} (hL : h.lockTimeout = some lockTimeout)
    (hw : w.Budgeted h lockTimeout) (halive : attempts h w answers = .alive w') :
    w'.Budgeted h lockTimeout := by
  induction answers generalizing w with
  | nil =>
    cases halive
    exact hw
  | cons answer later ih =>
    unfold attempts at halive
    cases hnext : attempt h w answer with
    | none =>
      rw [hnext] at halive
      cases halive
    | some w₁ =>
      rw [hnext] at halive
      exact ih (hw.next hL hnext) halive

/-- A loop that has met `answers` and is still alive goes on from where they left it. -/
theorem attempts_append {answers : List Answer} (halive : attempts h w answers = .alive w')
    (later : List Answer) : attempts h w (answers ++ later) = attempts h w' later := by
  induction answers generalizing w with
  | nil =>
    cases halive
    rfl
  | cons answer rest ih =>
    unfold attempts at halive
    show attempts h w (answer :: (rest ++ later)) = _
    rw [attempts]
    cases hnext : attempt h w answer with
    | none =>
      rw [hnext] at halive
      cases halive
    | some w₁ =>
      rw [hnext] at halive
      exact ih halive

/-- A loop that has declared the loss stays with it. -/
theorem attempts_lost {answers : List Answer} {t : ℚ} (hlost : attempts h w answers = .lost t)
    (later : List Answer) : attempts h w (answers ++ later) = .lost t := by
  induction answers generalizing w with
  | nil => cases hlost
  | cons answer rest ih =>
    unfold attempts at hlost
    show attempts h w (answer :: (rest ++ later)) = _
    rw [attempts]
    cases hnext : attempt h w answer with
    | none =>
      rw [hnext] at hlost
      exact hlost
    | some w₁ =>
      rw [hnext] at hlost
      exact ih hlost

/-- A loss that instant failures lead to is met after finitely many of them. -/
theorem LostAt.instant {t : ℚ} (hlost : LostAt h w.beat t) :
    ∃ n, attempts h w (List.replicate n (.failed false)) = .lost t := by
  generalize hb : w.beat = b at hlost
  induction hlost generalizing w with
  | now hround =>
    subst hb
    refine ⟨1, ?_⟩
    show attempts h w [.failed false] = _
    unfold attempts attempt
    rw [hround]
    rfl
  | @later b b' t hround _ ih =>
    subst hb
    obtain ⟨n, hn⟩ := ih (w := ⟨w.basis, b'⟩) rfl
    refine ⟨n + 1, ?_⟩
    rw [List.replicate_succ]
    unfold attempts attempt
    rw [hround]
    exact hn

/-- Failures alone end the loop, and at one time only. -/
theorem Watch.Budgeted.failures (hw : w.Budgeted h lockTimeout) :
    (∃ n, attempts h w (List.replicate n (.failed false)) =
        .lost (max (w.basis + lockTimeout) (w.basis + h.interval))) ∧
      ∀ n t, attempts h w (List.replicate n (.failed false)) = .lost t →
        t = max (w.basis + lockTimeout) (w.basis + h.interval) := by
  have hlost := lostAt_max (h := h) hw.deadline
  rw [hw.wake] at hlost
  obtain ⟨n, hn⟩ := hlost.instant
  refine ⟨⟨n, hn⟩, fun m t hm => ?_⟩
  -- as many failures more, on either side
  have hnm := attempts_lost hn (List.replicate m (.failed false))
  have hmn := attempts_lost hm (List.replicate n (.failed false))
  rw [List.replicate_append_replicate] at hnm hmn
  rw [Nat.add_comm, hmn] at hnm
  cases hnm
  rfl

/-- **Escalation.** After any answers that leave the loop alive, with `w.basis` its last success or
its start: a zero and a fatal error end the loop at once; tolerated errors alone end it after
finitely many attempts, never before the deadline and exactly there or at the first attempt,
whichever is later; and a success puts the loop back to its start. -/
theorem escalation {now : ℚ} {answers : List Answer} (hL : h.lockTimeout = some lockTimeout)
    (halive : attempts h (begin h now) answers = .alive w) :
    (∀ answer, answer = .gone ∨ answer = .failed true →
        attempts h (begin h now) (answers ++ [answer]) = .lost w.beat.wake) ∧
      (∀ n t, attempts h (begin h now) (answers ++ List.replicate n (.failed false)) = .lost t →
        w.basis + lockTimeout ≤ t ∧ t = max (w.basis + lockTimeout) (w.basis + h.interval)) ∧
      (∃ n, attempts h (begin h now) (answers ++ List.replicate n (.failed false)) =
        .lost (max (w.basis + lockTimeout) (w.basis + h.interval))) ∧
      ∀ later, attempts h (begin h now) (answers ++ .renewed :: later) =
        attempts h (begin h w.beat.wake) later := by
  have hw := (budgeted_begin hL now).after hL halive
  obtain ⟨hends, htime⟩ := hw.failures
  simp only [attempts_append halive]
  refine ⟨?_, ?_, hends, ?_⟩
  · intro answer hanswer
    rcases hanswer with rfl | rfl
    · rfl
    · rfl
  · intro n t hlost
    have ht := htime n t hlost
    refine ⟨?_, ht⟩
    rw [ht]
    exact le_max_left _ _
  · intro later
    rw [attempts, attempt_renewed hL]

/-- A lock timeout of 30 s, an interval of 10 s, a retry every second. -/
def tenOfThirty : Heartbeat := ⟨10, 1, some 30, by norm_num, by norm_num⟩

/-- An error at the first attempt and a success at the retry, a second later. -/
theorem escalation_retried :
    attempts tenOfThirty (begin tenOfThirty 0) [.failed false, .renewed] =
        .alive (begin tenOfThirty 11) ∧
      ∃ n, attempts tenOfThirty (begin tenOfThirty 0)
        ([.failed false, .renewed] ++ List.replicate n (.failed false)) = .lost (max 41 21) := by
  have halive : attempts tenOfThirty (begin tenOfThirty 0) [.failed false, .renewed] =
      .alive (begin tenOfThirty 11) := by
    norm_num [attempts, attempt, round, begin, start, tenOfThirty]
  have hL : tenOfThirty.lockTimeout = some 30 := rfl
  obtain ⟨-, -, ⟨n, hn⟩, -⟩ := escalation hL halive
  refine ⟨halive, n, ?_⟩
  rw [hn]
  norm_num [begin, tenOfThirty]

end Attempts

/-! ## Grants -/

/-- An acquire or a refresh that Redis grants: when it is sent, executed and answered. -/
structure Request where
  sent : ℚ
  executed : ℚ
  answered : ℚ
  sent_le : sent ≤ executed
  le_answered : executed ≤ answered

/-- What the heartbeat has to do with the request: an acquire starts the loop at `begun`, a loop
makes the refresh itself, or the request passes a loop by (`refresh()`, or an acquire while a loop
is in place). -/
inductive Grant
  | started (begun : ℚ)
  | renewed (before : Beat)
  | apart (basis : ℚ) (before : Beat)

/-- A loop starts after the answer of the acquire, and a refresh is sent after the sleep. -/
def Grant.Valid (h : Heartbeat) (q : Request) : Grant → Prop
  | .started begun => q.answered ≤ begun
  | .renewed before => before.wake ≤ q.sent
  | .apart basis before => Reaches h basis before

/-- The loop after the grant. -/
def Grant.after (h : Heartbeat) (q : Request) : Grant → Option Beat
  | .started begun => some (start h begun)
  | .renewed before => round h before q.answered .renewed
  | .apart _ before => some before

/-- The holder believes no longer than until `expiry`. -/
structure Safe (h : Heartbeat) (b : Beat) (expiry : ℚ) : Prop where
  deadline : ∃ d, b.deadline = some d ∧ d ≤ expiry
  lost : ∃ t, LostAt h b t ∧ t ≤ expiry

/-- The loop begins at the instant the acquire is executed; the answer of a refresh leaves room for
one more interval; a loop that the request passes by counts from an earlier time and wakes up before
the expiry. -/
def Grant.Conservative (h : Heartbeat) (lockTimeout : ℚ) (q : Request) : Grant → Prop
  | .started begun => begun = q.executed
  | .renewed _ => q.answered + h.interval ≤ q.executed + lockTimeout
  | .apart basis before => basis ≤ q.executed ∧ before.wake ≤ q.executed + lockTimeout

/-- A loop is safe exactly when neither its deadline nor its next attempt is too late. -/
theorem safe_iff {h : Heartbeat} {b : Beat} {d expiry : ℚ} (hd : b.deadline = some d) :
    Safe h b expiry ↔ d ≤ expiry ∧ b.wake ≤ expiry := by
  constructor
  · rintro ⟨-, t, hlost, hle⟩
    rw [hlost.unique (lostAt_max hd), max_le_iff] at hle
    exact ⟨hle.2, hle.1⟩
  · rintro ⟨hdeadline, hwake⟩
    exact ⟨⟨d, hd, hdeadline⟩, _, lostAt_max hd, max_le hwake hdeadline⟩

/-- **When the holder stops believing in time.** With refreshes that fail instantly from the grant
on, the loss is declared no later than the entry expires on the server exactly if the grant was
conservative. -/
theorem conservative_iff {h : Heartbeat} {lockTimeout : ℚ} {q : Request} {g : Grant}
    (hL : h.lockTimeout = some lockTimeout) (hinterval : h.interval ≤ lockTimeout)
    (hvalid : g.Valid h q) :
    (∃ b, g.after h q = some b ∧ Safe h b (q.executed + lockTimeout)) ↔
      g.Conservative h lockTimeout q := by
  have hsent := q.sent_le
  have hanswered := q.le_answered
  cases g with
  | started begun =>
    have hvalid : q.answered ≤ begun := hvalid
    have hsafe : Safe h (start h begun) (q.executed + lockTimeout) ↔ begun = q.executed := by
      rw [safe_iff ((Reaches.start begun).deadline hL)]
      constructor
      · rintro ⟨hdeadline, -⟩
        linarith
      · rintro rfl
        exact ⟨le_rfl, by simp only [start]; linarith⟩
    simpa [Grant.after, Grant.Conservative] using hsafe
  | renewed before =>
    have hvalid : before.wake ≤ q.sent := hvalid
    have hafter : round h before q.answered .renewed =
        some ⟨some (before.wake + lockTimeout), h.interval, q.answered + h.interval⟩ := by
      simp [round, hL]
    simp only [Grant.after, hafter, Option.some.injEq, exists_eq_left', Grant.Conservative]
    rw [safe_iff rfl]
    refine and_iff_right ?_
    linarith
  | apart basis before =>
    have hdeadline := Reaches.deadline hL hvalid
    simp only [Grant.after, Option.some.injEq, exists_eq_left', Grant.Conservative]
    rw [safe_iff hdeadline, add_le_add_iff_right]

/-- A request executed at 10 and answered a second later. -/
def atTen : Request := ⟨10, 10, 11, by norm_num, by norm_num⟩

/-- A request executed at 0 and answered a second later. -/
def atZero : Request := ⟨0, 0, 1, by norm_num, by norm_num⟩

/-- A refresh at the first wake-up, with one second of latency. -/
theorem conservative_iff_prompt : ∃ b,
    (Grant.renewed (start tenOfThirty 0)).after tenOfThirty atTen = some b ∧
      Safe tenOfThirty b (10 + 30) := by
  refine (conservative_iff (q := atTen) rfl ?_ ?_).mpr ?_
  · norm_num [tenOfThirty]
  · norm_num [Grant.Valid, start, tenOfThirty, atTen]
  · norm_num [Grant.Conservative, tenOfThirty, atTen]

/-- **A zombie for the latency of its acquire.** The slot is granted at 0 until 30, the answer takes
one second, and the loop that starts then counts its deadline from 1. -/
theorem late_deadline :
    (Grant.started 1).Valid tenOfThirty atZero ∧
      (start tenOfThirty 1).deadline = some 31 ∧ LostAt tenOfThirty (start tenOfThirty 1) 31 := by
  have hdeadline : (start tenOfThirty 1).deadline = some 31 := by
    norm_num [start, tenOfThirty]
  have hlost := lostAt_max (h := tenOfThirty) hdeadline
  have hmax : max (start tenOfThirty 1).wake 31 = 31 := by
    norm_num [start, tenOfThirty]
  rw [hmax] at hlost
  exact ⟨by norm_num [Grant.Valid, atZero], hdeadline, hlost⟩

end RedisSemaphore.Deadline
