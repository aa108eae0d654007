import RedisSemaphore.Dispatch.System

/-!
# A reclaim pass misses nothing

A leader scans the pending list in pages of `XAUTOCLAIM` and goes on from the cursor of the last
page. Between two pages anything may happen: other workers claim and touch, entries are delivered
and acknowledged, the client sends a page again, leadership moves and the scan starts over. When the
page with which it reaches the end has executed, every place in the pending list is either new or
was not abandoned when the pass began.
-/

namespace RedisSemaphore.Dispatch

open Redis Transition

variable {W : Type*} {π : Type} [DecidableEq W] {cfg : Config W π} {w : W}

/-! ## One command -/

/-- A hand-back sets the oldest place, one that can be reclaimed at once. -/
theorem renews_exec (w : W) (s : Server W) (cmd : Command W) :
    s.stream.Renews (s.now - cfg.reclaimIdle) (exec cfg w s cmd).1.stream := by
  have hnow {stream : StreamKey W Fields} (h : s.stream.Renews s.now stream) :
      s.stream.Renews (s.now - cfg.reclaimIdle) stream :=
    fun p hp => (h p hp).imp_right fun hsince => by omega
  cases cmd with
  | time => exact .refl _ _
  | ensureGroup => exact StreamKey.renews_createGroup
  | delConsumer name => exact StreamKey.renews_delConsumer
  | ack entry => exact StreamKey.renews_ack
  | del entry => exact (StreamKey.Renews.refl _ _).del
  -- the only command that sets a place back, by `reclaim_idle` and no more
  | handBack entries => exact StreamKey.renews_claim
  | touch entries => exact hnow StreamKey.renews_claim
  | finish jobId entry => exact StreamKey.renews_ack.del
  | acquire mutex =>
    rw [exec]
    split <;> exact .refl _ _
  | release mutex =>
    rw [exec]
    split <;> exact .refl _ _
  | infoConsumers =>
    rw [exec]
    split <;> exact .refl _ _
  | autoclaim start =>
    rw [exec]
    split
    · exact .refl _ _
    · rename_i hclaim
      exact hnow (StreamKey.renews_autoclaim hclaim)
  | readOwn count =>
    rw [exec]
    split
    · exact .refl _ _
    · rename_i hread
      exact StreamKey.renews_readOwn hread
  | readNew =>
    rw [exec]
    split
    · exact .refl _ _
    · rename_i hread
      exact hnow (StreamKey.renews_readNew hread)

/-! ## Where a lead loop is in its pass -/

/-- The cursor and the one in an answer that has not been read yet meet `Q`. -/
structure Lead.Within (Q : ℕ → Prop) (l : Lead W) : Prop where
  cursor : Q l.cursor
  reply : ∀ es cursor, l.reply = some (.claimed es cursor) → Q cursor

/-- The lead loop of the worker, if it has one, is within `Q`. -/
def Worker.Within (Q : ℕ → Prop) (k : Worker W) : Prop :=
  ∀ l, k.lead = some l → l.Within Q

section Within

variable {Q R : ℕ → Prop} {k k' : Worker W} {l : Lead W} {rest found : List Delivery}

omit [DecidableEq W] in
/-- A wider `Q` is met as well. -/
theorem Worker.Within.mono (h : k.Within Q) (hQR : ∀ n, Q n → R n) : k.Within R := fun l hl =>
  ⟨hQR _ (h l hl).cursor, fun es cursor hreply => hQR _ ((h l hl).reply es cursor hreply)⟩

omit [DecidableEq W] in
/-- A worker that does not lead is nowhere in a pass. -/
theorem Worker.within_of_none (h : k.lead = none) : k.Within Q := fun l hl => by
  rw [h] at hl
  cases hl

omit [DecidableEq W] in
/-- A move of the program counter keeps the cursor and drops the reply. -/
theorem Worker.within_leadTo {pc : LeadPc W} (h : Q l.cursor) : (k.leadTo l pc).Within Q := by
  intro l' hl'
  obtain rfl := Option.some.inj hl'
  refine ⟨h, fun es cursor hreply => ?_⟩
  cases hreply

omit [DecidableEq W] in
/-- On its way out a loop keeps its cursor, and then is gone. -/
theorem Worker.within_exit (h : Q l.cursor) : (k.exit l rest).Within Q := by
  rw [exit]
  split
  · exact within_leadTo h
  · exact within_of_none rfl

omit [DecidableEq W] in
/-- So does one that goes on after a hand-back. -/
theorem Worker.within_goOn {next : Next} (h : Q l.cursor) : (k.goOn l next).Within Q := by
  cases next with
  | exit rest => exact within_exit h
  | handRest rest =>
    rw [goOn, handRest]
    split
    · exact within_exit h
    · exact within_leadTo h

omit [DecidableEq W] in
/-- So does one that looks at what its page found. -/
theorem Worker.within_reclaimed (h : Q l.cursor) : (k.reclaimed l found).Within Q := by
  rw [reclaimed]
  split <;> exact within_leadTo h

omit [DecidableEq W] in
/-- So does one that removes dead consumers first. -/
theorem Worker.within_prune {dead : List W} (h : Q l.cursor) : (k.prune l found dead).Within Q := by
  cases dead with
  | nil => exact within_reclaimed h
  | cons name dead => exact within_leadTo h

omit [DecidableEq W] in
/-- So does one that has read its backlog. -/
theorem Worker.within_collected (h : Q l.cursor) : (k.collected l found).Within Q := by
  rw [collected]
  split <;> exact within_leadTo h

/-- The loop keeps its cursor, takes the one of the answer, or starts over. -/
theorem LeadStep.within {note : Note W} (h : LeadStep cfg w k l note k') (hl : l.Within Q)
    (hzero : Q 0) : k'.Within Q := by
  cases h with
  | ensured ret r hpc hreply => cases ret <;> exact Worker.within_leadTo hl.cursor
  -- a due reclaim starts over at `0`, an overdue one goes on
  | reclaim hpc hheld hgo =>
    refine Worker.within_leadTo ?_
    show Q (if k.reclaimNow then 0 else l.cursor)
    split
    · exact hzero
    · exact hl.cursor
  -- a page moves the cursor to the one it was answered
  | claimed snapshot es cursor hpc hreply =>
    exact Worker.within_reclaimed (hl.reply es cursor hreply)
  | claimedNone snapshot hpc hreply => exact Worker.within_leadTo hzero
  | inspect snapshot es cursor hpc hreply =>
    exact Worker.within_leadTo (hl.reply es cursor hreply)
  | inspected found infos hpc hreply => exact Worker.within_prune hl.cursor
  | inspectedNone found hpc hreply => exact Worker.within_reclaimed hl.cursor
  | pruned name dead found r hpc hreply => exact Worker.within_prune hl.cursor
  | collected snapshot es hpc hreply => exact Worker.within_collected hl.cursor
  | leave hpc hover => exact Worker.within_exit hl.cursor
  | waitCancelled t task rest hpc htask hsettled => exact Worker.within_exit hl.cursor
  | abandoned t task raising rest hpc htask hended hstays => exact Worker.within_goOn hl.cursor
  | unwound t task rest hpc htask hended => exact Worker.within_exit hl.cursor
  | handed entries next r hpc hreply => exact Worker.within_goOn hl.cursor
  | handFailed entries next hpc => exact Worker.within_goOn hl.cursor
  | handCancelled entries locked next hpc => exact Worker.within_exit hl.cursor
  | failed rest hpc => exact Worker.within_exit hl.cursor
  | released r hpc hreply => exact Worker.within_of_none rfl
  | releaseFailed hpc => exact Worker.within_of_none rfl
  | _ => exact Worker.within_leadTo hl.cursor

/-- Other coroutines leave the lead loop alone; a new one starts at the beginning. -/
theorem WorkerStep.within {note : Note W} (h : WorkerStep cfg w k note k') (hk : k.Within Q)
    (hzero : Q 0) : k'.Within Q := by
  cases h with
  | lead hlead hstep => exact hstep.within (hk _ hlead) hzero
  | task htask hstep =>
    intro l' hl'
    exact hk l' (hstep.frame.lead ▸ hl')
  | run hstep =>
    cases hstep with
    | ask hlead hidle => exact hk
    | won mutex hasking =>
      intro l' hl'
      obtain rfl := Option.some.inj hl'
      refine ⟨hzero, fun es cursor hreply => ?_⟩
      cases hreply
    | lost mutex hasking => exact hk
    | askFailed mutex reply hasking => exact hk
    | stop => exact hk
    | loseMutex l hlead =>
      intro l' hl'
      obtain rfl := Option.some.inj hl'
      exact ⟨(hk l hlead).cursor, (hk l hlead).reply⟩
    | clear hlead hidle htasks htouch => exact hk
  | touch hstep => cases hstep <;> exact hk

omit [DecidableEq W] in
/-- An answer to the lead loop brings its own cursor. -/
theorem Worker.Within.answer {r : Reply W} {co : Co} (h : k.Within Q)
    (hr : co = .lead → ∀ es cursor, r = .claimed es cursor → Q cursor) :
    (k.answer r co).Within Q := by
  intro l' hl'
  by_cases hco : co = .lead
  · subst hco
    obtain ⟨l, hl, rfl⟩ := Option.map_eq_some_iff.mp hl'
    refine ⟨(h l hl).cursor, fun es cursor hreply => ?_⟩
    exact hr rfl es cursor (Option.some.inj hreply)
  · exact h l' (answer_lead hco ▸ hl')

end Within

/-! ## The pass -/

/-- No place before `position` is older than `floor`. -/
def Swept (floor : ℤ) (stream : StreamKey W Fields) (position : ℕ) : Prop :=
  ∀ p ∈ stream.places, p.id < position → floor ≤ p.since

omit [DecidableEq W] in
/-- There is nothing before the beginning. -/
theorem swept_zero {floor : ℤ} {stream : StreamKey W Fields} : Swept floor stream 0 :=
  fun _ _ hlt => absurd hlt (Nat.not_lt_zero _)

omit [DecidableEq W] in
/-- Others may renew a place behind the cursor, which makes it younger, and add new ones, which
are young. They cannot add an old one. -/
theorem Swept.renews {floor : ℤ} {stream stream' : StreamKey W Fields} {position : ℕ}
    (h : Swept floor stream position) (hrenews : stream.Renews floor stream') :
    Swept floor stream' position := fun p hp hlt =>
  (hrenews p hp).elim (fun hold => h p hold hlt) id

/-- A page takes the sweep from its start to the cursor it answers, and to the end where that is
`0`. -/
theorem since_exec_autoclaim {s : Server W} {floor : ℤ} {start cursor : ℕ} {es : List Delivery}
    {p : PendingEntry W} (hfloor : floor ≤ s.now - cfg.reclaimIdle)
    (hpos : ∀ id ∈ s.stream.pendingIds, 0 < id) (hswept : Swept floor s.stream start)
    (hreply : (exec cfg w s (.autoclaim start)).2 = .claimed es cursor)
    (hp : p ∈ (exec cfg w s (.autoclaim start)).1.stream.places)
    (hbehind : cursor = 0 ∨ p.id < cursor) : floor ≤ p.since := by
  have hrenews : s.stream.Renews floor (exec cfg w s (.autoclaim start)).1.stream := fun q hq =>
    (renews_exec w s (.autoclaim start) q hq).imp_right hfloor.trans
  -- before the start of the page the sweep had come already; from there on the page itself looked
  by_cases hstart : p.id < start
  · exact (hrenews p hp).elim (fun hold => hswept p hold hstart) id
  · simp only [exec] at hreply hp
    split at hreply
    · cases hreply
    · rename_i stream es' cursor' hclaim
      obtain ⟨-, rfl⟩ := Reply.claimed.inj hreply
      rw [hclaim] at hp
      exact hfloor.trans (StreamKey.since_autoclaim hclaim (Int.natCast_nonneg _) hpos hp
        (not_lt.mp hstart) hbehind)

/-- What holds during the passes of `w`: nothing behind its cursor is older than `floor`. -/
structure Passing (cfg : Config W π) (w : W) (floor : ℤ) (s : World W) : Prop where
  now : floor ≤ s.server.now - cfg.reclaimIdle
  positive : ∀ id ∈ s.server.stream.pendingIds, 0 < id
  swept : (s.workers w).Within (Swept floor s.server.stream)

variable {floor : ℤ} {s s' : World W} {e : Event W}

/-- The execution of a command keeps the pass of `w`, where the loop of `w` is left within what is
swept afterwards. -/
theorem Passing.exec {w' : W} {cmd : Command W} {k : Worker W} (h : Passing cfg w floor s)
    (hk : k.Within (Swept floor (Dispatch.exec cfg w' s.server cmd).1.stream)) :
    Passing cfg w floor { s with
      server := (Dispatch.exec cfg w' s.server cmd).1
      workers := Function.update s.workers w k } := by
  refine ⟨?_, fun id hid => ?_, by simpa only [Function.update_self] using hk⟩
  · show floor ≤ (Dispatch.exec cfg w' s.server cmd).1.now - cfg.reclaimIdle
    rw [now_exec]
    exact h.now
  · exact ((advances_exec cmd).pending id hid).elim (h.positive id) (Nat.zero_lt_of_lt)

/-- **One step.** -/
theorem Passing.step (h : Passing cfg w floor s) (hstep : Step cfg s e s') :
    Passing cfg w floor s' := by
  -- any command, of any worker, keeps what is swept
  have hkept (w' : W) (cmd : Command W) :
      (s.workers w).Within (Swept floor (Dispatch.exec cfg w' s.server cmd).1.stream) :=
    h.swept.mono fun n hn => hn.renews fun p hp =>
      (renews_exec w' s.server cmd p hp).imp_right h.now.trans
  cases hstep with
  | append id fields hnew => exact ⟨h.now, h.positive, h.swept⟩
  | advance now hnow =>
    exact ⟨h.now.trans (Int.sub_le_sub_right hnow _), h.positive, h.swept⟩
  | expire => exact ⟨h.now, h.positive, h.swept⟩
  | late w' cmd hstray =>
    have := h.exec (hkept w' cmd)
    rwa [Function.update_eq_self] at this
  | exec w' co cmd hcmd =>
    by_cases hw : w' = w
    · subst hw
      refine h.exec ((hkept w' cmd).answer ?_)
      rintro rfl es cursor hreply p hp hlt
      -- only `XAUTOCLAIM` is answered with a cursor, and it started at that of the loop
      have hcmd' : ∃ start, cmd = .autoclaim start := by
        cases cmd <;> simp only [Dispatch.exec] at hreply <;> first
          | exact ⟨_, rfl⟩
          | cases hreply
          | (split at hreply <;> cases hreply)
      obtain ⟨start, rfl⟩ := hcmd'
      obtain ⟨l, hlead, hcommand⟩ := Option.bind_eq_some_iff.mp hcmd
      have hstart : l.cursor = start := by
        unfold Lead.command at hcommand
        split at hcommand <;> simp_all
      exact since_exec_autoclaim h.now h.positive (hstart ▸ (h.swept l hlead).cursor) hreply hp
        (Or.inr hlt)
    · have := h.exec (hkept w' cmd)
      rw [Function.update_eq_self] at this
      refine ⟨this.now, this.positive, ?_⟩
      simpa only [Function.update_of_ne (Ne.symm hw)] using this.swept
  -- a segment of `w` moves its cursor; those of others do not touch it
  | act w' note k halive hact =>
    refine ⟨h.now, h.positive, ?_⟩
    by_cases hw : w' = w
    · subst hw
      simpa only [Function.update_self] using hact.within h.swept swept_zero
    · simpa only [Function.update_of_ne (Ne.symm hw)] using h.swept
  | crash w' =>
    refine ⟨h.now, h.positive, ?_⟩
    by_cases hw : w' = w
    · subst hw
      simpa only [Function.update_self] using
        (Worker.within_of_none rfl : (Worker.dead : Worker W).Within _)
    · simpa only [Function.update_of_ne (Ne.symm hw)] using h.swept

/-- Entries are numbered from `1`. -/
theorem pendingIds_pos {tr : List (Event W)} (h : (system cfg).Run tr s) :
    ∀ id ∈ s.server.stream.pendingIds, 0 < id := by
  refine h.invariant (I := fun _ s => ∀ id ∈ s.server.stream.pendingIds, 0 < id) ?_ ?_
  · rintro s rfl id hid
    cases hid
  · intro tr s e s' hrun hpos hstep
    cases hstep with
    | exec w co cmd hcmd | late w cmd hstray =>
      exact fun id hid => ((advances_exec cmd).pending id hid).elim (hpos id) Nat.zero_lt_of_lt
    | _ => exact hpos

/-- **A pass misses nothing.** Let the scan of `w` be at the beginning at `s`, and let a page of it
reach the end at `u`, whatever has happened in between. When that page has executed, no place in the
pending list is older than `reclaimIdle` before `s`: what was abandoned at `s` has been claimed,
touched, handed back or settled since. -/
theorem pass_complete {tr tr' : List (Event W)} {s u : World W} {start : ℕ} {es : List Delivery}
    (hrun : (system cfg).Run tr s) (hfresh : (s.workers w).Within (· = 0))
    (hpath : (system cfg).Path s tr' u)
    (hpage : (u.workers w).command .lead = some (.autoclaim start))
    (hend : (exec cfg w u.server (.autoclaim start)).2 = .claimed es 0) :
    ∀ p ∈ (exec cfg w u.server (.autoclaim start)).1.stream.places,
      s.server.now - cfg.reclaimIdle ≤ p.since := by
  have hpassing : Passing cfg w (s.server.now - cfg.reclaimIdle) u := by
    refine hpath.invariant (I := fun _ => Passing cfg w (s.server.now - cfg.reclaimIdle)) ?_ ?_
    · refine ⟨le_rfl, pendingIds_pos hrun, hfresh.mono ?_⟩
      rintro _ rfl
      exact swept_zero
    · intro _ _ _ _ _ ih hstep
      exact ih.step hstep
  obtain ⟨l, hlead, hcommand⟩ := Option.bind_eq_some_iff.mp hpage
  have hstart : l.cursor = start := by
    unfold Lead.command at hcommand
    split at hcommand <;> simp_all
  intro p hp
  exact since_exec_autoclaim hpassing.now hpassing.positive
    (hstart ▸ (hpassing.swept l hlead).cursor) hend hp (Or.inl rfl)

/-- Worker `0` is delivered an entry and dies; five seconds later worker `1` leads and scans. -/
theorem pass_complete_abandoned : ∃ s u : World ℕ,
    s.server.stream.places.map PendingEntry.since = [0] ∧ s.server.now = 5000 ∧
      ∀ p ∈ (exec plain 1 u.server (.autoclaim 0)).1.stream.places, 4000 ≤ p.since := by
  have hbegin {tr : List (Event ℕ)} {s : World ℕ} (_ : (system plain).Run tr s) :
      (system plain).Path s [] s := .refl
  have hclose {s u : World ℕ} (hpass : ∀ p ∈ (exec plain 1 u.server (.autoclaim 0)).1.stream.places,
        s.server.now - plain.reclaimIdle ≤ p.since)
      (hsince : s.server.stream.places.map PendingEntry.since = [0]) (hnow : s.server.now = 5000) :
      ∃ s u : World ℕ, s.server.stream.places.map PendingEntry.since = [0] ∧
        s.server.now = 5000 ∧
        ∀ p ∈ (exec plain 1 u.server (.autoclaim 0)).1.stream.places, 4000 ≤ p.since :=
    ⟨s, u, hsince, hnow, fun p hp => (by rw [hnow]; decide : (4000 : ℤ) ≤ _).trans (hpass p hp)⟩
  have h : (system plain).Run [] (⟨.initial, fun _ => .initial, []⟩ : World ℕ) := .start rfl
  have h := h.step (Step.act 0 _ _ rfl (.run (.ask rfl rfl)))
  have h := h.step (Step.exec 0 .run _ rfl)
  have h := h.step (Step.act 0 _ _ rfl (.run (.won 0 rfl)))
  have h := h.step (Step.exec 0 .lead _ rfl)
  have h := h.step (Step.act 0 _ _ rfl (.lead rfl (.ensured .top _ rfl rfl)))
  have h := h.step (Step.act 0 _ _ rfl (.lead rfl (.skip rfl rfl rfl rfl)))
  have h := h.step (Step.append 1 ping (by decide))
  have h := h.step (Step.exec 0 .lead _ rfl)
  have h := h.step (Step.crash 0)
  have h := h.step (Step.advance 5000 (by decide))
  have h₀ := h.step Step.expire
  -- the pass of worker `1`
  have h := hbegin h₀
  have h := h.step (Step.act 1 _ _ rfl (.run (.ask rfl rfl)))
  have h := h.step (Step.exec 1 .run _ rfl)
  have h := h.step (Step.act 1 _ _ rfl (.run (.won 0 rfl)))
  have h := h.step (Step.exec 1 .lead _ rfl)
  have h := h.step (Step.act 1 _ _ rfl (.lead rfl (.ensured .top _ rfl rfl)))
  have h := h.step (Step.act 1 _ _ rfl (.lead rfl (.reclaim rfl rfl rfl)))
  have h := h.step (Step.exec 1 .lead _ rfl)
  have h := h.step (Step.act 1 _ _ rfl (.lead rfl (.timed _ _ rfl rfl)))
  exact hclose (pass_complete h₀ (Worker.within_of_none rfl) h rfl rfl) rfl rfl

end RedisSemaphore.Dispatch
