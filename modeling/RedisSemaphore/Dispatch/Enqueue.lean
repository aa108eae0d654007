import RedisSemaphore.Dispatch.System

/-!
# Enqueueing jobs

`DISPATCH_ENQUEUE_SCRIPT` and the producers that call it. A submit's call may be executed any number
of times: the marker key remembers the entry the first successful execution appended. In between,
workers execute their commands on the queue, the clock advances and markers expire.
-/

namespace RedisSemaphore.Dispatch.Producer

open Redis Transition

/-! ## The script -/

/-- The arguments of one submit. A size of `0` is unbounded, and a `reply_ttl` of less than a
millisecond would be refused by `SET`. -/
structure Submit where
  jobId : String
  payload : String
  maxSize : ℕ
  markerTtlMs : ℕ
  timeoutMs : Option ℕ
  ttl_pos : 0 < markerTtlMs

/-- A marker key: the entry a submit created, and when Redis may drop the key. -/
structure Marker where
  entry : ℕ
  deadline : ℤ
  deriving DecidableEq, Repr

/-- The keys of one queue as producers see them. -/
structure Queue (W : Type*) where
  server : Server W
  markers : String → Option Marker

/-- The times of an entry are below `10 ^ 14`, which is in the year 5138. Lua's `tostring` prints
numbers with `%.14g`, so from there on it rounds them to fourteen digits. -/
def Submit.Printed (a : Submit) (nowMs : ℤ) : Prop :=
  nowMs < 100000000000000 ∧
    ∀ timeoutMs, a.timeoutMs = some timeoutMs → nowMs + timeoutMs < 100000000000000

/-- The fields of a new entry; both times are stamped from the server clock. They are printed in
full here, as `tostring` prints them where they are `Printed`. -/
def jobFields (a : Submit) (nowMs : ℤ) : Fields :=
  [("id", a.jobId), ("payload", a.payload), ("created", toString nowMs),
    ("deadline", match a.timeoutMs with
      | none => ""
      | some timeoutMs => toString (nowMs + timeoutMs))]

/-- How an execution ends. A caller cannot tell the entry it appended from the one it finds. -/
inductive Enqueued
  | existing (entry : ℕ)
  | full
  | appended (entry : ℕ)
  deriving DecidableEq, Repr

/-- What the script answers: the entry of the job, new or not, or nothing where the queue is full.
-/
def Enqueued.reply : Enqueued → Option ℕ
  | .existing entry => some entry
  | .full => none
  | .appended entry => some entry

variable {W : Type*} {π : Type}

/-- `DISPATCH_ENQUEUE_SCRIPT`. `XADD` with an automatic identifier is given the one Redis chooses,
which is greater than every earlier one. -/
def enqueueScript (a : Submit) (id : ℕ) (q : Queue W) (hnew : q.server.stream.lastId < id) :
    Enqueued × Queue W :=
  match q.markers a.jobId with
  | some marker => (.existing marker.entry, q)
  | none =>
    if 0 < a.maxSize ∧ a.maxSize ≤ q.server.stream.entries.length then (.full, q)
    else
      let nowMs := q.server.now
      (.appended id,
        { server := { q.server with stream := q.server.stream.add id (jobFields a nowMs) hnew }
          markers := Function.update q.markers a.jobId (some ⟨id, nowMs + a.markerTtlMs⟩) })

/-! ## Runs -/

/-- An execution of the script, a command of a worker, the clock, or the expiry of a marker. -/
inductive Event (W : Type*)
  | enqueue (time : ℤ) (a : Submit) (result : Enqueued)
  | command (w : W) (cmd : Command W)
  | wait (now : ℤ)
  | expire (jobId : String)

variable [DecidableEq W] (cfg : Config W π)

/-- A submit, a command of a worker, the clock, or a marker that expires. -/
inductive Step (q : Queue W) : Event W → Queue W → Prop
  | enqueue (a : Submit) (id : ℕ) (hnew : q.server.stream.lastId < id) :
      Step q (.enqueue q.server.now a (enqueueScript a id q hnew).1) (enqueueScript a id q hnew).2
  | command (w : W) (cmd : Command W) :
      Step q (.command w cmd) { q with server := (exec cfg w q.server cmd).1 }
  | wait (now : ℤ) (hnow : q.server.now ≤ now) :
      Step q (.wait now) { q with server := { q.server with now := now } }
  | expire (jobId : String) (marker : Marker) (hmarker : q.markers jobId = some marker)
      (hdeadline : marker.deadline ≤ q.server.now) :
      Step q (.expire jobId) { q with markers := Function.update q.markers jobId none }

/-- The queue nobody has used. -/
def system : System (Queue W) (Event W) where
  start q := q = ⟨.initial, fun _ => none⟩
  step := Step cfg

/-! ## What a trace says about a submit -/

/-- The first successful execution of a submit: its time, the time to live of the marker it set, and
the entry it returned. -/
structure Success where
  time : ℤ
  markerTtlMs : ℕ
  entry : ℕ

/-- The first submit of the job that was answered with an entry. -/
def firstSuccess : List (Event W) → String → Option Success
  | [], _ => none
  | .enqueue time a result :: tr, jobId =>
    match firstSuccess tr jobId with
    | some first => some first
    | none =>
      if a.jobId = jobId then result.reply.map fun entry => ⟨time, a.markerTtlMs, entry⟩ else none
  | .command _ _ :: tr, jobId => firstSuccess tr jobId
  | .wait _ :: tr, jobId => firstSuccess tr jobId
  | .expire _ :: tr, jobId => firstSuccess tr jobId

/-- The execution appends an entry of the job. -/
def Event.appends (jobId : String) : Event W → Bool
  | .enqueue _ a (.appended _) => decide (a.jobId = jobId)
  | _ => false

/-- How often the job has been appended. -/
def appendCount (tr : List (Event W)) (jobId : String) : ℕ := tr.countP (Event.appends jobId)

/-- Every producer uses the same bound. -/
def SameSize (m : ℕ) (tr : List (Event W)) : Prop :=
  ∀ time a result, .enqueue time a result ∈ tr → a.maxSize = m

/-- Every execution after the first successful one of its submit comes within the time to live of
the marker. -/
def WithinTtl : List (Event W) → Prop :=
  Guarded fun tr e => ∀ time a result, e = .enqueue time a result →
    ∀ first, firstSuccess tr a.jobId = some first → time < first.time + first.markerTtlMs

/-- Every execution after the first successful one of its submit returns the same entry. -/
def Agreed : List (Event W) → Prop :=
  Guarded fun tr e => ∀ time a result, e = .enqueue time a result →
    ∀ first, firstSuccess tr a.jobId = some first → result.reply = some first.entry

/-! ## The invariant -/

/-- The bound, and what the markers say about the executions so far. -/
structure Inv (m : ℕ) (tr : List (Event W)) (q : Queue W) : Prop where
  size : q.server.stream.entries.length ≤ m
  fresh : ∀ jobId, firstSuccess tr jobId = none →
    q.markers jobId = none ∧ appendCount tr jobId = 0
  known : ∀ jobId first, firstSuccess tr jobId = some first →
    (q.markers jobId = some ⟨first.entry, first.time + first.markerTtlMs⟩ ∨
      q.markers jobId = none ∧ first.time + first.markerTtlMs ≤ q.server.now) ∧
    appendCount tr jobId = 1

variable {cfg} {tr : List (Event W)} {q q' : Queue W} {m : ℕ}

omit [DecidableEq W] in
/-- The three outcomes of an execution. -/
theorem enqueueScript_cases (a : Submit) (id : ℕ) (q : Queue W)
    (hnew : q.server.stream.lastId < id) :
    (∃ marker, q.markers a.jobId = some marker ∧
      enqueueScript a id q hnew = (.existing marker.entry, q)) ∨
    (q.markers a.jobId = none ∧ enqueueScript a id q hnew = (.full, q)) ∨
    (q.markers a.jobId = none ∧ (0 < a.maxSize → q.server.stream.entries.length < a.maxSize) ∧
      enqueueScript a id q hnew = (.appended id,
        { server := { q.server with
            stream := q.server.stream.add id (jobFields a q.server.now) hnew }
          markers :=
            Function.update q.markers a.jobId (some ⟨id, q.server.now + a.markerTtlMs⟩) })) := by
  cases hmarker : q.markers a.jobId with
  | some marker =>
    refine Or.inl ⟨marker, rfl, ?_⟩
    simp only [enqueueScript, hmarker]
  | none =>
    by_cases hfull : 0 < a.maxSize ∧ a.maxSize ≤ q.server.stream.entries.length
    · refine Or.inr (Or.inl ⟨rfl, ?_⟩)
      simp only [enqueueScript, hmarker, if_pos hfull]
    · refine Or.inr (Or.inr ⟨rfl, fun hpos => ?_, ?_⟩)
      · by_contra hle
        exact hfull ⟨hpos, not_lt.mp hle⟩
      · simp only [enqueueScript, hmarker, if_neg hfull]

/-- Commands of workers never add an entry. -/
theorem length_exec_le (w : W) (s : Server W) (cmd : Command W) :
    (exec cfg w s cmd).1.stream.entries.length ≤ s.stream.entries.length := by
  have hnodup : (exec cfg w s cmd).1.stream.entries.Nodup :=
    (exec cfg w s cmd).1.stream.sorted.imp fun h heq => (heq ▸ h).false
  have hadvances : s.stream.Advances (exec cfg w s cmd).1.stream := advances_exec cmd
  exact (List.subperm_of_subset hnodup hadvances.entries).length_le

omit [DecidableEq W] in
/-- A submit of another job, or one that appends nothing, does not count. -/
theorem appendCount_enqueue (time : ℤ) (a : Submit) (result : Enqueued) (jobId : String)
    (h : ∀ entry, result = .appended entry → a.jobId ≠ jobId) :
    appendCount (.enqueue time a result :: tr) jobId = appendCount tr jobId := by
  refine List.countP_cons_of_neg ?_
  cases result with
  | appended entry => simpa [Event.appends] using h entry rfl
  | _ => simp [Event.appends]

omit [DecidableEq W] in
/-- An execution that neither succeeds for the first time nor appends leaves what is known. -/
theorem Inv.quiet (h : Inv m tr q) {e : Event W}
    (hfirst : ∀ jobId, firstSuccess (e :: tr) jobId = firstSuccess tr jobId)
    (hcount : ∀ jobId, appendCount (e :: tr) jobId = appendCount tr jobId) : Inv m (e :: tr) q where
  size := h.size
  fresh jobId hnone := by
    rw [hcount]
    exact h.fresh jobId (hfirst jobId ▸ hnone)
  known jobId first hsome := by
    rw [hcount]
    exact h.known jobId first (hfirst jobId ▸ hsome)

omit [DecidableEq W] in
/-- The first success stays the first. -/
theorem firstSuccess_of_some {jobId : String} {first : Success} (time : ℤ) (a : Submit)
    (result : Enqueued) (h : firstSuccess tr jobId = some first) :
    firstSuccess (.enqueue time a result :: tr) jobId = some first := by
  simp only [firstSuccess, h]

omit [DecidableEq W] in
/-- A submit of another job is none. -/
theorem firstSuccess_of_ne {jobId : String} (time : ℤ) {a : Submit} (result : Enqueued)
    (hne : a.jobId ≠ jobId) :
    firstSuccess (.enqueue time a result :: tr) jobId = firstSuccess tr jobId := by
  cases h : firstSuccess tr jobId with
  | none => simp only [firstSuccess, h, if_neg hne]
  | some first => exact firstSuccess_of_some time a result h

omit [DecidableEq W] in
/-- An execution that finds no marker and a full queue. -/
theorem firstSuccess_full (time : ℤ) (a : Submit) (jobId : String) :
    firstSuccess (.enqueue time a .full :: tr) jobId = firstSuccess tr jobId := by
  cases h : firstSuccess tr jobId with
  | none => simp only [firstSuccess, h, Enqueued.reply, Option.map_none, ite_self]
  | some first => exact firstSuccess_of_some time a .full h

omit [DecidableEq W] in
/-- The first successful execution of a submit appends. -/
theorem Inv.append (h : Inv m tr q) {a : Submit} {id : ℕ} (hnew : q.server.stream.lastId < id)
    (hroom : q.server.stream.entries.length < m) (hnever : firstSuccess tr a.jobId = none) :
    Inv m (.enqueue q.server.now a (.appended id) :: tr)
      { server := { q.server with
          stream := q.server.stream.add id (jobFields a q.server.now) hnew }
        markers :=
          Function.update q.markers a.jobId (some ⟨id, q.server.now + a.markerTtlMs⟩) } where
  size := by
    simp only [StreamKey.add, List.length_append, List.length_singleton]
    omega
  fresh jobId hnone := by
    have hne : a.jobId ≠ jobId := by
      rintro rfl
      simp [firstSuccess, hnever, Enqueued.reply] at hnone
    rw [firstSuccess_of_ne _ _ hne] at hnone
    rw [appendCount_enqueue _ _ _ _ fun _ _ => hne]
    simp only [Function.update_of_ne hne.symm]
    exact h.fresh jobId hnone
  known jobId first hsome := by
    by_cases hne : a.jobId = jobId
    · subst hne
      simp only [firstSuccess, hnever, if_true, Enqueued.reply, Option.map_some,
        Option.some.injEq] at hsome
      subst hsome
      refine ⟨Or.inl (Function.update_self ..), ?_⟩
      have hcount : appendCount (Event.enqueue q.server.now a (.appended id) :: tr) a.jobId
          = appendCount tr a.jobId + 1 := List.countP_cons_of_pos (by simp [Event.appends])
      rw [hcount, (h.fresh _ hnever).2]
    · rw [firstSuccess_of_ne _ _ hne] at hsome
      rw [appendCount_enqueue _ _ _ _ fun _ _ => hne]
      simp only [Function.update_of_ne (Ne.symm hne)]
      exact h.known jobId first hsome

omit [DecidableEq W] in
/-- One execution of the script. -/
theorem Inv.enqueue (h : Inv m tr q) (hm : 0 < m) (a : Submit) (id : ℕ)
    (hnew : q.server.stream.lastId < id) (hsize : a.maxSize = m)
    (httl : ∀ first, firstSuccess tr a.jobId = some first →
      q.server.now < first.time + first.markerTtlMs) :
    Inv m (.enqueue q.server.now a (enqueueScript a id q hnew).1 :: tr)
        (enqueueScript a id q hnew).2 ∧
      ∀ first, firstSuccess tr a.jobId = some first →
        (enqueueScript a id q hnew).1.reply = some first.entry := by
  -- within the time to live the marker of an execution that succeeded is there
  have hmarked : ∀ first, firstSuccess tr a.jobId = some first →
      q.markers a.jobId = some ⟨first.entry, first.time + first.markerTtlMs⟩ := by
    intro first hfirst
    have hlt := httl first hfirst
    exact (h.known _ _ hfirst).1.resolve_right fun hgone => by omega
  have hnever : q.markers a.jobId = none → firstSuccess tr a.jobId = none := by
    intro hnone
    by_contra hsome
    obtain ⟨first, hfirst⟩ := Option.ne_none_iff_exists'.mp hsome
    rw [hmarked first hfirst] at hnone
    cases hnone
  rcases enqueueScript_cases a id q hnew with
    ⟨marker, hmarker, heq⟩ | ⟨hnone, heq⟩ | ⟨hnone, hroom, heq⟩
  · rw [heq]
    obtain ⟨first, hfirst⟩ : ∃ first, firstSuccess tr a.jobId = some first := by
      refine Option.ne_none_iff_exists'.mp fun hnone => ?_
      rw [(h.fresh _ hnone).1] at hmarker
      cases hmarker
    rw [hmarked first hfirst, Option.some.injEq] at hmarker
    subst hmarker
    refine ⟨h.quiet (fun jobId => ?_) fun jobId => ?_, fun first' hfirst' => ?_⟩
    · by_cases hne : a.jobId = jobId
      · subst hne
        rw [firstSuccess_of_some _ _ _ hfirst, hfirst]
      · exact firstSuccess_of_ne _ _ hne
    · exact appendCount_enqueue _ _ _ _ fun entry hres => by cases hres
    · rw [hfirst, Option.some.injEq] at hfirst'
      subst hfirst'
      rfl
  · rw [heq]
    refine ⟨h.quiet (firstSuccess_full _ a) fun jobId => ?_, fun first hfirst => ?_⟩
    · exact appendCount_enqueue _ _ _ _ fun entry hres => by cases hres
    · rw [hnever hnone] at hfirst
      cases hfirst
  · rw [heq]
    have hlt : q.server.stream.entries.length < m := hsize ▸ hroom (hsize ▸ hm)
    refine ⟨h.append hnew hlt (hnever hnone), fun first hfirst => ?_⟩
    rw [hnever hnone] at hfirst
    cases hfirst

/-- Commands, the clock and expiries. -/
theorem Inv.other (h : Inv m tr q) {e : Event W} (hs : Step cfg q e q')
    (he : ∀ time a result, e ≠ .enqueue time a result) : Inv m (e :: tr) q' := by
  cases hs with
  | enqueue a id hnew => exact absurd rfl (he _ _ _)
  | command w cmd =>
    refine ⟨(length_exec_le w q.server cmd).trans h.size, h.fresh, ?_⟩
    simp only [now_exec]
    exact h.known
  | wait now hnow =>
    refine ⟨h.size, h.fresh, fun jobId first hfirst => ?_⟩
    obtain ⟨hmarker, hcount⟩ := h.known jobId first hfirst
    exact ⟨hmarker.imp_right fun ⟨hnone, hle⟩ => ⟨hnone, hle.trans hnow⟩, hcount⟩
  | expire jobId marker hmarker hdeadline =>
    refine ⟨h.size, fun job hfirst => ?_, fun job first hfirst => ?_⟩
    · obtain ⟨hnone, hcount⟩ := h.fresh job hfirst
      refine ⟨?_, hcount⟩
      by_cases hjob : job = jobId
      · subst hjob
        exact Function.update_self ..
      · exact (Function.update_of_ne hjob ..).trans hnone
    · obtain ⟨hknown, hcount⟩ := h.known job first hfirst
      refine ⟨?_, hcount⟩
      by_cases hjob : job = jobId
      · subst hjob
        refine Or.inr ⟨Function.update_self .., ?_⟩
        rcases hknown with hsome | ⟨-, hle⟩
        · rw [hmarker, Option.some.injEq] at hsome
          rw [hsome] at hdeadline
          exact hdeadline
        · exact hle
      · simp only [Function.update_of_ne hjob]
        exact hknown

/-- **Enqueueing is exactly-once and bounded.** With one bound and every repetition within the time
to live of the marker: the stream never holds more entries than the bound, no job is appended twice,
and from the first successful execution on a submit is always told the same entry. -/
theorem enqueue_exactly_once (hm : 0 < m) (h : (system cfg).Run tr q) (hsize : SameSize m tr)
    (httl : WithinTtl tr) :
    q.server.stream.entries.length ≤ m ∧ (∀ jobId, appendCount tr jobId ≤ 1) ∧ Agreed tr := by
  have hinv : SameSize m tr → WithinTtl tr → Inv m tr q ∧ Agreed tr := by
    refine System.Run.invariant (M := system cfg)
      (I := fun tr q => SameSize m tr → WithinTtl tr → Inv m tr q ∧ Agreed tr) ?_ ?_ h
    · rintro q rfl - -
      refine ⟨⟨Nat.zero_le _, fun _ _ => ⟨rfl, rfl⟩, ?_⟩, trivial⟩
      intro jobId first hfirst
      cases hfirst
    · intro tr q e q' _ ih hs hsize httl
      obtain ⟨hinv, hagreed⟩ :=
        ih (fun time a result hmem => hsize time a result (List.mem_cons_of_mem _ hmem)) httl.2
      by_cases he : ∃ time a result, e = .enqueue time a result
      · obtain ⟨time, a, result, rfl⟩ := he
        cases hs with
        | enqueue a id hnew =>
          obtain ⟨hinv', hsame⟩ := hinv.enqueue hm a id hnew
            (hsize _ _ _ (List.mem_cons_self ..)) (httl.1 _ _ _ rfl)
          refine ⟨hinv', ?_, hagreed⟩
          intro time' a' result' heq
          obtain ⟨-, rfl, rfl⟩ := Event.enqueue.inj heq
          exact hsame
      · push Not at he
        exact ⟨hinv.other hs he, fun time a result heq => absurd heq (he time a result), hagreed⟩
  obtain ⟨hinv, hagreed⟩ := hinv hsize httl
  refine ⟨hinv.size, fun jobId => ?_, hagreed⟩
  cases hfirst : firstSuccess tr jobId with
  | none => exact ((hinv.fresh jobId hfirst).2).le.trans (Nat.zero_le _)
  | some first => exact ((hinv.known jobId first hfirst).2).le

/-! ### A repeated submit -/

/-- A submit to a queue of one job. -/
def pingOnce : Submit := ⟨"j", "{}", 1, 60000, none, by decide⟩

/-- The job is appended and finished. The call is executed again, and finds the entry. -/
theorem enqueue_exactly_once_finished : ∃ q : Queue ℕ,
    (system plain).Run
      [.enqueue 0 pingOnce (.existing 1), .command 0 (.finish "j" 1),
        .enqueue 0 pingOnce (.appended 1)] q ∧
    q.server.stream.entries.length ≤ 1 := by
  have h₀ : (system plain).Run [] (⟨.initial, fun _ => none⟩ : Queue ℕ) := .start rfl
  have h₁ := h₀.step (Step.enqueue pingOnce 1 (by decide))
  have h₂ := h₁.step (Step.command 0 (.finish "j" 1))
  have h₃ : (system plain).Run [.enqueue 0 pingOnce (.existing 1), .command 0 (.finish "j" 1),
      .enqueue 0 pingOnce (.appended 1)] _ := h₂.step (Step.enqueue pingOnce 2 (by decide))
  refine ⟨_, h₃, (enqueue_exactly_once (by decide) h₃ ?_ ?_).1⟩
  · intro time a result hmem
    simp only [List.mem_cons, List.not_mem_nil, or_false, reduceCtorEq, false_or,
      Event.enqueue.injEq] at hmem
    rcases hmem with ⟨-, rfl, -⟩ | ⟨-, rfl, -⟩ <;> rfl
  · refine ⟨?_, by rintro _ _ _ ⟨⟩, ?_, trivial⟩
    · rintro time a result ⟨⟩ first hfirst
      obtain rfl := Option.some.inj hfirst
      decide
    · rintro time a result ⟨⟩ first hfirst
      cases hfirst

/-! ## Producers among the workers -/

/-- To the workers an execution of the script is an append, or nothing at all. -/
theorem append_of_enqueue {s : World W} (hserver : s.server = q.server) (a : Submit) (id : ℕ)
    (hnew : q.server.stream.lastId < id) :
    (enqueueScript a id q hnew).2.server = s.server ∨
      Dispatch.Step cfg s (.append id (jobFields a q.server.now))
        { s with server := (enqueueScript a id q hnew).2.server } := by
  rcases enqueueScript_cases a id q hnew with ⟨marker, -, heq⟩ | ⟨-, heq⟩ | ⟨-, -, heq⟩
  · exact Or.inl (by rw [heq, hserver])
  · exact Or.inl (by rw [heq, hserver])
  · right
    rw [heq]
    have hid : s.server.stream.lastId < id := by
      rw [hserver]
      exact hnew
    have hstep : Dispatch.Step cfg s (.append id (jobFields a q.server.now)) _ :=
      .append id (jobFields a q.server.now) hid
    simpa only [hserver] using hstep

end RedisSemaphore.Dispatch.Producer
