import RedisSemaphore.RateLimiter.Accounting

/-!
# Adjusting permits

`RateLimiter.adjust` remembers on the permit what the server recorded, and names it as the old cost
of the next adjust. When a reply is lost the server has moved on and the permit has not: the next
adjust removes a member that is no longer there and adds another one next to the member that is, or,
if it asks for the cost the permit still remembers, is not sent at all.

`Agrees` is the condition under which neither happens, and `one_entry_per_request` says what holds
along every run that meets it.
-/

namespace RedisSemaphore.RateLimiter

open Redis Transition

variable {κ ι : Type*}

/-! ## The client -/

/-- What `RatePermit` remembers of an admitted request. -/
structure Permit (κ : Type*) where
  costs : κ → ℕ
  acquiredAt : ℤ

/-- `_adjust_args`: only the limits whose cost actually changes go to Redis. -/
def adjustChange (permit : Permit κ) (newCosts : κ → ℕ) (name : κ) : Option (ℕ × ℕ) :=
  if newCosts name ≠ permit.costs name then some (permit.costs name, newCosts name) else none

/-- A limit whose cost does not change is not handed to the script. -/
theorem adjustChange_eq_none {permit : Permit κ} {newCosts : κ → ℕ} {name : κ}
    (h : newCosts name = permit.costs name) : adjustChange permit newCosts name = none :=
  if_neg (by simpa using h)

/-- A limit whose cost changes is passed on with both costs. -/
theorem adjustChange_eq_some {permit : Permit κ} {newCosts : κ → ℕ} {name : κ}
    (h : newCosts name ≠ permit.costs name) :
    adjustChange permit newCosts name = some (permit.costs name, newCosts name) :=
  if_pos h

/-- `_apply_adjustment`. -/
def applyAdjustment (permit : Permit κ) (newCosts : κ → ℕ) : Permit κ :=
  { permit with costs := newCosts }

/-- What happens to one limiter and the permits it has issued. An adjust returns, or its script runs
and the reply is lost. -/
inductive Action (κ ι : Type*)
  | acquire (identifier : ι) (cost : κ → ℕ)
  | adjust (identifier : ι) (newCosts : κ → ℕ) (returned : Bool)
  | status
  | wait (time : ℤ)
  | expire (name : κ) (kind : KeyKind)

variable [LinearOrder (Member ι)]

/-- The limiter on the server and the permits the callers hold. -/
structure Clients (κ ι : Type*) [LinearOrder (Member ι)] where
  server : Server κ ι
  permits : ι → Option (Permit κ)

/-! ## One entry per request -/

/-- The log of a limit after the adjust script. -/
theorem mem_log_onLimit_adjust {l : Limit κ} {time acquiredAt : ℤ} {keys : LimitKeys ι}
    {identifier : ι} {change : κ → Option (ℕ × ℕ)} {oldCost newCost : ℕ} {admitted : Bool}
    (hchange : change l.name = some (oldCost, newCost))
    {e : Scored (Member ι)} :
    e ∈ ((Call.adjust identifier acquiredAt change).onLimit admitted time l
        keys).2.log.value.entries ↔
      (0 < newCost ∧ time - l.windowMs < acquiredAt ∧ e = ⟨⟨newCost, identifier⟩, acquiredAt⟩) ∨
      ¬(0 < newCost ∧ time - l.windowMs < acquiredAt ∧ e.member = ⟨newCost, identifier⟩) ∧
        ¬(0 < oldCost ∧ e.member = ⟨oldCost, identifier⟩) ∧
        e ∈ keys.log.value.entries ∧ time - l.windowMs < e.score := by
  simp only [Call.onLimit, hchange, Option.getD_some]
  exact mem_log_adjustLimit _ _ _ _ ⟨l.name, l.windowMs, oldCost, newCost⟩ _ l.window_pos

/-- The entries of a log belong to admitted requests, at their admission time and one for each. -/
structure OneEntry (permits : ι → Option (Permit κ)) (keys : LimitKeys ι) : Prop where
  positive : ∀ e ∈ keys.log.value.entries, 0 < e.member.cost
  admitted : ∀ e ∈ keys.log.value.entries, ∃ permit,
    permits e.member.identifier = some permit ∧ permit.acquiredAt = e.score
  single : ∀ e ∈ keys.log.value.entries, ∀ e' ∈ keys.log.value.entries,
    e.member.identifier = e'.member.identifier → e = e'

section OneEntry

variable {permits : ι → Option (Permit κ)} {keys : LimitKeys ι}

/-- Keys that do not exist record nothing. -/
theorem oneEntry_initial : OneEntry permits (LimitKeys.initial : LimitKeys ι) :=
  ⟨fun e he => (by cases he), fun e he => (by cases he), fun e he => (by cases he)⟩

/-- A log that only loses entries. -/
theorem OneEntry.subset (h : OneEntry permits keys) {keys' : LimitKeys ι}
    (hsub : ∀ e ∈ keys'.log.value.entries, e ∈ keys.log.value.entries) : OneEntry permits keys' :=
  ⟨fun e he => h.positive e (hsub e he), fun e he => h.admitted e (hsub e he),
    fun e he e' he' => h.single e (hsub e he) e' (hsub e' he')⟩

/-- New permits, and permits whose costs change, keep the admission times. -/
theorem OneEntry.keep (h : OneEntry permits keys) {permits' : ι → Option (Permit κ)}
    (hkeep : ∀ identifier permit, permits identifier = some permit → ∃ permit',
      permits' identifier = some permit' ∧ permit'.acquiredAt = permit.acquiredAt) :
    OneEntry permits' keys := by
  refine ⟨h.positive, fun e he => ?_, h.single⟩
  obtain ⟨permit, hpermit, hat⟩ := h.admitted e he
  obtain ⟨permit', hpermit', hat'⟩ := hkeep _ _ hpermit
  exact ⟨permit', hpermit', hat'.trans hat⟩

end OneEntry

variable [DecidableEq ι]

/-! ## What a log records of a request -/

/-- The costs recorded in a log under an identifier. -/
def recordedCosts (identifier : ι) (keys : LimitKeys ι) : List ℕ :=
  (keys.log.value.entries.filter fun e => e.member.identifier = identifier).map
    fun e => e.member.cost

/-- What a log should record of a request with this cost: nothing if it is `0`. -/
def askedFor (cost : ℕ) : List ℕ := if cost = 0 then [] else [cost]

section RecordedCosts

variable {identifier : ι} {keys : LimitKeys ι} {cost : ℕ}

/-- The costs that are recorded under the identifier. -/
theorem mem_recordedCosts : cost ∈ recordedCosts identifier keys ↔
    ∃ score, ⟨⟨cost, identifier⟩, score⟩ ∈ keys.log.value.entries := by
  simp only [recordedCosts, List.mem_map, List.mem_filter, decide_eq_true_eq]
  constructor
  · rintro ⟨⟨⟨cost, identifier⟩, score⟩, ⟨he, rfl⟩, rfl⟩
    exact ⟨score, he⟩
  · rintro ⟨score, he⟩
    exact ⟨_, ⟨he, rfl⟩, rfl⟩

/-- Entries that agree whenever they share an identifier record at most one cost each. -/
theorem recordedCosts_length_le (h : ∀ e ∈ keys.log.value.entries, ∀ e' ∈ keys.log.value.entries,
    e.member.identifier = e'.member.identifier → e = e') :
    (recordedCosts identifier keys).length ≤ 1 := by
  have hnodup : (keys.log.value.entries.filter
      fun e => e.member.identifier = identifier).Nodup :=
    (List.Nodup.of_map _ keys.log.value.nodup).sublist List.filter_sublist
  rw [recordedCosts, List.length_map]
  by_contra hlong
  obtain ⟨e, e', rest, heq⟩ : ∃ e e' rest, keys.log.value.entries.filter
      (fun e => e.member.identifier = identifier) = e :: e' :: rest := by
    match hl : keys.log.value.entries.filter fun e => e.member.identifier = identifier with
    | [] => simp [hl] at hlong
    | [e] => simp [hl] at hlong
    | e :: e' :: rest => exact ⟨e, e', rest, hl⟩
  have hmem : ∀ x ∈ [e, e'], x ∈ keys.log.value.entries ∧ x.member.identifier = identifier := by
    intro x hx
    have : x ∈ keys.log.value.entries.filter fun e => e.member.identifier = identifier := by
      rw [heq]
      simp only [List.mem_cons, List.not_mem_nil, or_false] at hx ⊢
      tauto
    simpa using this
  obtain ⟨he, hid⟩ := hmem e (by simp)
  obtain ⟨he', hid'⟩ := hmem e' (by simp)
  rw [heq, h e he e' he' (hid.trans hid'.symm)] at hnodup
  simp at hnodup

/-- A log with one entry for a request records what was asked for when it records nothing else. -/
theorem recordedCosts_eq_askedFor (hone : (recordedCosts identifier keys).length ≤ 1)
    (honly : ∀ c ∈ recordedCosts identifier keys, c = cost)
    (hpos : 0 ∉ recordedCosts identifier keys)
    (hthere : cost ≠ 0 → cost ∈ recordedCosts identifier keys) :
    recordedCosts identifier keys = askedFor cost := by
  rw [askedFor]
  match hl : recordedCosts identifier keys with
  | [] =>
    rw [hl] at hthere
    rw [if_pos]
    by_contra hne
    exact absurd (hthere hne) List.not_mem_nil
  | [c] =>
    rw [hl] at honly hpos
    obtain rfl := honly c List.mem_cons_self
    rw [if_neg]
    rintro rfl
    exact hpos List.mem_cons_self
  | c :: c' :: rest => simp [hl] at hone

end RecordedCosts

/-! ## Steps of one limit -/

/-- The recording of a fresh request. -/
theorem OneEntry.admits {permits : ι → Option (Permit κ)} {l : Limit κ} {time : ℤ}
    {keys : LimitKeys ι} (h : OneEntry permits keys) {identifier : ι} {cost : κ → ℕ}
    (hfresh : permits identifier = none) :
    OneEntry (Function.update permits identifier (some ⟨cost, time⟩))
      ((Call.acquire identifier cost).onLimit true time l keys).2 := by
  -- the identifier is new: nobody has a permit for it, so nothing is recorded under it
  have hother : ∀ e ∈ keys.log.value.entries, e.member.identifier ≠ identifier := by
    intro e he heq
    obtain ⟨permit, hpermit, -⟩ := h.admitted e he
    rw [heq, hfresh] at hpermit
    cases hpermit
  have hmem : ∀ e ∈ ((Call.acquire identifier cost).onLimit true time l keys).2.log.value.entries,
      e ∈ keys.log.value.entries ∨
        0 < cost l.name ∧ e = ⟨⟨cost l.name, identifier⟩, time⟩ := by
    intro e he
    rcases (mem_log_recordLimit _ _ _ _ ⟨l.name, l.limit, l.windowMs, cost l.name⟩ _
      l.window_pos).mp he with he | ⟨hpos, -, rfl⟩
    · exact Or.inl (mem_log_evict.mp he).1
    · exact Or.inr ⟨hpos, rfl⟩
  refine ⟨fun e he => ?_, fun e he => ?_, fun e he e' he' heq => ?_⟩
  · rcases hmem e he with he | ⟨hpos, rfl⟩
    · exact h.positive e he
    · exact hpos
  · rcases hmem e he with he | ⟨-, rfl⟩
    · rw [Function.update_of_ne (hother e he)]
      exact h.admitted e he
    · exact ⟨_, Function.update_self .., rfl⟩
  · rcases hmem e he with he | ⟨-, rfl⟩ <;> rcases hmem e' he' with he' | ⟨-, rfl⟩
    · exact h.single e he e' he' heq
    · exact absurd heq (hother e he)
    · exact absurd heq.symm (hother e' he')
    · rfl

section Adjust

variable {permits : ι → Option (Permit κ)} {l : Limit κ} {time acquiredAt : ℤ} {keys : LimitKeys ι}
  {identifier : ι} {change : κ → Option (ℕ × ℕ)} {oldCost newCost : ℕ} {admitted : Bool}

/-- Where the log agrees with the permit, the adjust leaves nothing of the request but the new
cost. -/
theorem OneEntry.adjusted (h : OneEntry permits keys) (admitted : Bool)
    (hchange : change l.name = some (oldCost, newCost))
    (hagree : ∀ c ∈ recordedCosts identifier keys, c = oldCost ∨ c = newCost)
    (hwin : time - l.windowMs < acquiredAt) {e : Scored (Member ι)}
    (he : e ∈ ((Call.adjust identifier acquiredAt change).onLimit admitted time l
      keys).2.log.value.entries) (hid : e.member.identifier = identifier) :
    0 < newCost ∧ e = ⟨⟨newCost, identifier⟩, acquiredAt⟩ := by
  rcases (mem_log_onLimit_adjust hchange).mp he with ⟨hpos, -, rfl⟩ | ⟨hnew, hold, hmem, -⟩
  · exact ⟨hpos, rfl⟩
  · have hpos := h.positive e hmem
    obtain ⟨⟨cost, identifier'⟩, score⟩ := e
    obtain rfl : identifier' = identifier := hid
    rcases hagree cost (mem_recordedCosts.mpr ⟨score, hmem⟩) with rfl | rfl
    · exact absurd ⟨hpos, rfl⟩ hold
    · exact absurd ⟨hpos, hwin, rfl⟩ hnew

/-- **An adjust keeps one entry for each request**, if the log agrees with the permit whenever the
script adds a member. -/
theorem OneEntry.adjust (h : OneEntry permits keys) (admitted : Bool) (time : ℤ) {permit : Permit κ}
    (hpermit : permits identifier = some permit) (hat : permit.acquiredAt = acquiredAt)
    (hchange : change l.name = some (oldCost, newCost))
    (hagree : time - l.windowMs < acquiredAt → newCost ≠ 0 →
      ∀ c ∈ recordedCosts identifier keys, c = oldCost ∨ c = newCost) :
    OneEntry permits
      ((Call.adjust identifier acquiredAt change).onLimit admitted time l keys).2 := by
  -- with a new cost in the window the log gains an entry, which replaces the old one by `hagree`;
  -- otherwise it only loses
  by_cases hadd : 0 < newCost ∧ time - l.windowMs < acquiredAt
  · have honly := fun e => h.adjusted admitted hchange
      (hagree hadd.2 (by omega)) hadd.2 (e := e)
    have hother : ∀ e ∈ ((Call.adjust identifier acquiredAt change).onLimit admitted time l
        keys).2.log.value.entries, e.member.identifier ≠ identifier →
        e ∈ keys.log.value.entries := by
      intro e he hne
      rcases (mem_log_onLimit_adjust hchange).mp he with ⟨-, -, rfl⟩ | ⟨-, -, he, -⟩
      · exact absurd rfl hne
      · exact he
    refine ⟨fun e he => ?_, fun e he => ?_, fun e he e' he' heq => ?_⟩
    · by_cases hid : e.member.identifier = identifier
      · rw [(honly e he hid).2]
        exact hadd.1
      · exact h.positive e (hother e he hid)
    · by_cases hid : e.member.identifier = identifier
      · rw [(honly e he hid).2]
        exact ⟨permit, hpermit, hat⟩
      · exact h.admitted e (hother e he hid)
    · by_cases hid : e.member.identifier = identifier
      · rw [(honly e he hid).2, (honly e' he' (heq ▸ hid)).2]
      · exact h.single e (hother e he hid) e' (hother e' he' (heq ▸ hid)) heq
  · refine h.subset fun e he => ?_
    rcases (mem_log_onLimit_adjust hchange).mp he with ⟨hpos, hwin, -⟩ | ⟨-, -, he, -⟩
    · exact absurd ⟨hpos, hwin⟩ hadd
    · exact he

/-- **An adjust records what it asks for**, if the log agrees with the permit. -/
theorem OneEntry.recordedCosts_adjust (h : OneEntry permits keys) {permit : Permit κ}
    (hpermit : permits identifier = some permit) (hat : permit.acquiredAt = acquiredAt)
    (hchange : change l.name = some (oldCost, newCost)) (hwin : time - l.windowMs < acquiredAt)
    (hagree : ∀ c ∈ recordedCosts identifier keys, c = oldCost ∨ c = newCost) :
    recordedCosts identifier
        ((Call.adjust identifier acquiredAt change).onLimit admitted time l keys).2
      = askedFor newCost := by
  have hone := h.adjust admitted time hpermit hat hchange fun _ _ => hagree
  have honly : ∀ c ∈ recordedCosts identifier
      ((Call.adjust identifier acquiredAt change).onLimit admitted time l keys).2,
      0 < newCost ∧ c = newCost := by
    intro c hc
    obtain ⟨score, he⟩ := mem_recordedCosts.mp hc
    obtain ⟨hpos, heq⟩ := h.adjusted admitted hchange hagree hwin he rfl
    exact ⟨hpos, congrArg (fun e => e.member.cost) heq⟩
  refine recordedCosts_eq_askedFor (recordedCosts_length_le hone.single)
    (fun c hc => (honly c hc).2) (fun hzero => ?_) fun hne => ?_
  · obtain ⟨hpos, heq⟩ := honly 0 hzero
    omega
  · exact mem_recordedCosts.mpr ⟨acquiredAt, (mem_log_onLimit_adjust hchange).mpr
      (Or.inl ⟨by omega, hwin, rfl⟩)⟩

end Adjust

/-! ## The callers and the server -/

variable [DecidableEq κ]

/-- The server after a script. -/
def Clients.run (cfg : Config κ) (call : Call κ ι) (s : Clients κ ι) : Server κ ι :=
  { s.server with store := (exec cfg call s.server.time s.server.store).2 }

/-- The reply of an acquire admits the request. -/
def Clients.admits (cfg : Config κ) (identifier : ι) (cost : κ → ℕ) (s : Clients κ ι) : Bool :=
  (exec cfg (.acquire identifier cost) s.server.time s.server.store).1.admitted

/-- One step of the callers and the server. Every request draws a fresh identifier, and is adjusted
through the permit it got. An adjust without changes makes no round trip. -/
inductive ClientStep (cfg : Config κ) : Clients κ ι → Action κ ι → Clients κ ι → Prop
  | admits (s : Clients κ ι) (identifier : ι) (cost : κ → ℕ) (hfresh : s.permits identifier = none)
      (hr : s.admits cfg identifier cost = true) :
      ClientStep cfg s (.acquire identifier cost)
        ⟨s.run cfg (.acquire identifier cost),
          Function.update s.permits identifier (some ⟨cost, s.server.time⟩)⟩
  | deny (s : Clients κ ι) (identifier : ι) (cost : κ → ℕ) (hfresh : s.permits identifier = none)
      (hr : s.admits cfg identifier cost = false) :
      ClientStep cfg s (.acquire identifier cost)
        ⟨s.run cfg (.acquire identifier cost), s.permits⟩
  | unchanged (s : Clients κ ι) (identifier : ι) (permit : Permit κ) (newCosts : κ → ℕ)
      (hpermit : s.permits identifier = some permit)
      (hsend : changedLimits cfg (adjustChange permit newCosts) = []) :
      ClientStep cfg s (.adjust identifier newCosts true) s
  | adjust (s : Clients κ ι) (identifier : ι) (permit : Permit κ) (newCosts : κ → ℕ)
      (returned : Bool) (hpermit : s.permits identifier = some permit)
      (hsend : changedLimits cfg (adjustChange permit newCosts) ≠ []) :
      ClientStep cfg s (.adjust identifier newCosts returned)
        ⟨s.run cfg (.adjust identifier permit.acquiredAt (adjustChange permit newCosts)),
          if returned then
            Function.update s.permits identifier (some (applyAdjustment permit newCosts))
          else s.permits⟩
  | status (s : Clients κ ι) : ClientStep cfg s .status ⟨s.run cfg .status, s.permits⟩
  | wait (s : Clients κ ι) (time : ℤ) (h : s.server.time ≤ time) :
      ClientStep cfg s (.wait time) ⟨{ s.server with time := time }, s.permits⟩
  | expire (s : Clients κ ι) (name : κ) (kind : KeyKind) :
      ClientStep cfg s (.expire name kind)
        ⟨⟨s.server.time, Function.update s.server.store name
          ((s.server.store name).expire kind s.server.time)⟩, s.permits⟩

/-- The runs of one limiter and its callers. -/
def clients (cfg : Config κ) : System (Clients κ ι) (Action κ ι) where
  start s := (s.server.store = fun _ => LimitKeys.initial) ∧ s.permits = fun _ => none
  step := ClientStep cfg

/-- An adjust meets a log that agrees with its permit. Where the script is sent, the log records the
cost the permit remembers or the one asked for, or nothing (a lost adjust to `0` may also meet
another cost: it adds nothing). Where it is not sent, the log records what is asked for. Limits
whose window the request has left do not matter. -/
def Agrees (cfg : Config κ) (s : Clients κ ι) : Action κ ι → Prop
  | .adjust identifier newCosts returned =>
    ∀ permit, s.permits identifier = some permit → ∀ l ∈ cfg.limits,
      s.server.time - l.windowMs < permit.acquiredAt →
        if newCosts l.name = permit.costs l.name then
          returned = true →
            recordedCosts identifier (s.server.store l.name) = askedFor (newCosts l.name)
        else
          returned = true ∨ newCosts l.name ≠ 0 →
            ∀ c ∈ recordedCosts identifier (s.server.store l.name),
              c = permit.costs l.name ∨ c = newCosts l.name
  | _ => True

/-! ## Runs -/

section Runs

variable {cfg : Config κ} {s s' : Clients κ ι}

omit [DecidableEq ι] in
/-- The keys of a limit after an adjust: untouched if the cost does not change. -/
theorem store_adjust {l : Limit κ} (hl : l ∈ cfg.limits) {identifier : ι} {acquiredAt : ℤ}
    {permit : Permit κ} {newCosts : κ → ℕ} :
    (s.run cfg (.adjust identifier acquiredAt (adjustChange permit newCosts))).store l.name =
      if newCosts l.name = permit.costs l.name then s.server.store l.name
      else ((Call.adjust identifier acquiredAt (adjustChange permit newCosts)).onLimit
        (exec cfg (.adjust identifier acquiredAt (adjustChange permit newCosts)) s.server.time
          s.server.store).1.admitted s.server.time l (s.server.store l.name)).2 := by
  split
  · rename_i hsame
    refine exec_untouched _ _ _
      (.adjust identifier acquiredAt (adjustChange permit newCosts)) fun l' hl' heq => ?_
    have hchanged := (mem_changedLimits.mp hl').2
    rw [heq, adjustChange_eq_none hsame] at hchanged
    cases hchanged
  · rename_i hchange
    refine exec_touched _ _ _ (.adjust identifier acquiredAt (adjustChange permit newCosts))
      (mem_changedLimits.mpr ⟨hl, ?_⟩)
    rw [adjustChange_eq_some hchange]
    rfl

/-- **One step**: where an adjust meets a log that agrees with its permit, every log keeps one entry
for each request. -/
theorem oneEntry_step {a : Action κ ι}
    (h : ∀ l ∈ cfg.limits, OneEntry s.permits (s.server.store l.name)) (hok : Agrees cfg s a)
    (hs : ClientStep cfg s a s') :
    ∀ l ∈ cfg.limits, OneEntry s'.permits (s'.server.store l.name) := by
  intro l hl
  have hlog := h l hl
  cases hs with
  | admits identifier cost hfresh hr =>
    have hstore := exec_touched cfg s.server.time s.server.store (.acquire identifier cost) hl
    rw [Clients.admits] at hr
    simp only [Clients.run, hstore, hr]
    exact hlog.admits hfresh
  | deny identifier cost hfresh hr =>
    have hstore := exec_touched cfg s.server.time s.server.store (.acquire identifier cost) hl
    rw [Clients.admits] at hr
    simp only [Clients.run, hstore, hr]
    exact hlog.subset fun e he => (mem_log_evict.mp he).1
  | unchanged identifier permit newCosts hpermit hsend => exact hlog
  | adjust identifier permit newCosts returned hpermit hsend =>
    have hkept : OneEntry s.permits ((s.run cfg (.adjust identifier permit.acquiredAt
        (adjustChange permit newCosts))).store l.name) := by
      rw [store_adjust hl]
      split
      · exact hlog
      · rename_i hchange
        refine hlog.adjust _ _ hpermit rfl (adjustChange_eq_some hchange) fun hwin hne => ?_
        have hagree := hok permit hpermit l hl hwin
        rw [if_neg hchange] at hagree
        exact hagree (Or.inr hne)
    -- a lost reply leaves the permit as it was, with the old costs
    cases returned with
    | false => exact hkept
    | true =>
      refine hkept.keep fun identifier' permit' hpermit' => ?_
      by_cases hid : identifier' = identifier
      · subst hid
        rw [hpermit, Option.some.injEq] at hpermit'
        exact ⟨_, Function.update_self .., by rw [← hpermit']; rfl⟩
      · exact ⟨permit', (Function.update_of_ne hid _ _).trans hpermit', rfl⟩
  | status =>
    have hstore := exec_touched cfg s.server.time s.server.store .status hl
    simp only [Clients.run, hstore]
    exact hlog.subset fun e he => (mem_log_evict.mp he).1
  | wait time hle => exact hlog
  | expire name kind =>
    by_cases hname : l.name = name
    · subst hname
      simp only [Function.update_self]
      refine hlog.subset fun e he => ?_
      cases kind with
      | log => exact SortedSetKey.mem_of_mem_expire he
      | total => exact he
    · simp only [Function.update_of_ne hname]
      exact hlog

/-- Right after an adjust that returned, a limit whose window the request is in records what was
asked for. -/
theorem recordedCosts_of_returned {identifier : ι} {newCosts : κ → ℕ}
    (h : ∀ l ∈ cfg.limits, OneEntry s.permits (s.server.store l.name))
    (hok : Agrees cfg s (.adjust identifier newCosts true))
    (hs : ClientStep cfg s (.adjust identifier newCosts true) s') :
    ∃ permit, s'.permits identifier = some permit ∧ ∀ l ∈ cfg.limits,
      s'.server.time - l.windowMs < permit.acquiredAt →
        recordedCosts identifier (s'.server.store l.name) = askedFor (newCosts l.name) := by
  cases hs with
  -- a call with nothing to change does not reach the server
  | unchanged identifier permit newCosts hpermit hsend =>
    refine ⟨permit, hpermit, fun l hl hwin => ?_⟩
    have hagree := hok permit hpermit l hl hwin
    have hsame : newCosts l.name = permit.costs l.name := by
      by_contra hchange
      have hmem : l ∈ changedLimits cfg (adjustChange permit newCosts) :=
        mem_changedLimits.mpr ⟨hl, by rw [adjustChange_eq_some hchange]; rfl⟩
      rw [hsend] at hmem
      exact List.not_mem_nil hmem
    rw [if_pos hsame] at hagree
    exact hagree rfl
  | adjust identifier permit newCosts returned hpermit hsend =>
    refine ⟨_, Function.update_self .., fun l hl hwin => ?_⟩
    have hagree := hok permit hpermit l hl hwin
    simp only [store_adjust hl]
    split
    · rename_i hsame
      rw [if_pos hsame] at hagree
      exact hagree rfl
    · rename_i hchange
      rw [if_neg hchange] at hagree
      exact (h l hl).recordedCosts_adjust hpermit rfl (adjustChange_eq_some hchange) hwin
        (hagree (Or.inl rfl))

/-- The invariant holds in every run whose adjustments agree with the log. -/
theorem oneEntry_of_run {tr : List (Action κ ι)}
    (h : ((clients cfg).restrict (Agrees cfg)).Run tr s) :
    ∀ l ∈ cfg.limits, OneEntry s.permits (s.server.store l.name) := by
  refine System.Run.invariant (M := (clients cfg).restrict (Agrees cfg))
    (I := fun _ s => ∀ l ∈ cfg.limits, OneEntry s.permits (s.server.store l.name)) ?_
    (fun tr s a s' _ ih hs => oneEntry_step ih hs.1 hs.2) h
  rintro s ⟨hstore, -⟩ l -
  rw [hstore]
  exact oneEntry_initial

/-- **One log entry for each request.** In every run whose adjusts meet logs that agree with their
permits, each log has at most one member for a request, and right after an adjust that returned,
each limit whose window the request is in records exactly the cost that was asked for. -/
theorem one_entry_per_request {tr : List (Action κ ι)}
    (h : ((clients cfg).restrict (Agrees cfg)).Run tr s) :
    (∀ l ∈ cfg.limits, ∀ identifier,
      (recordedCosts identifier (s.server.store l.name)).length ≤ 1) ∧
    ∀ identifier newCosts earlier, tr = .adjust identifier newCosts true :: earlier →
      ∃ permit, s.permits identifier = some permit ∧ ∀ l ∈ cfg.limits,
        s.server.time - l.windowMs < permit.acquiredAt →
          recordedCosts identifier (s.server.store l.name) = askedFor (newCosts l.name) := by
  refine ⟨fun l hl identifier => recordedCosts_length_le (oneEntry_of_run h l hl).single, ?_⟩
  rintro identifier newCosts earlier rfl
  obtain ⟨s₀, hrun, hok, hs⟩ := h.of_cons
  exact recordedCosts_of_returned (oneEntry_of_run hrun) hok hs

end Runs

/-! ## A lost reply -/

/-- Request `7` holds ten units of ten since 1000 ms. -/
def reserved : Clients ℕ ℕ :=
  ⟨⟨1000, (exec tenPerSecond (.acquire 7 fun _ => 10) 1000 fun _ => LimitKeys.initial).2⟩,
    Function.update (fun _ => none) 7 (some ⟨fun _ => 10, 1000⟩)⟩

/-- Nobody has used the limiter yet. -/
def unused : Clients ℕ ℕ := ⟨⟨1000, fun _ => LimitKeys.initial⟩, fun _ => none⟩

/-- The reservation of the runs below is admitted. -/
theorem admit_reserved : ClientStep tenPerSecond unused (.acquire 7 fun _ => 10) reserved :=
  .admits unused 7 (fun _ => 10) rfl (by decide)

/-- An adjust of the reservation that returns leaves one entry with the new cost. -/
theorem one_entry_per_request_settled :
    ∃ s : Clients ℕ ℕ, ((clients tenPerSecond).restrict (Agrees tenPerSecond)).Run
        [.adjust 7 (fun _ => 5) true, .acquire 7 fun _ => 10] s ∧
      recordedCosts 7 (s.server.store 0) = [5] := by
  have hstart : ((clients tenPerSecond).restrict (Agrees tenPerSecond)).Run [] unused :=
    .start ⟨rfl, rfl⟩
  have hgranted : Agrees tenPerSecond unused (.acquire 7 fun _ => 10) := trivial
  have hreserved := hstart.step ⟨hgranted, admit_reserved⟩
  have hagrees : Agrees tenPerSecond reserved (.adjust 7 (fun _ => 5) true) := by
    intro permit hpermit l hl _
    obtain rfl := List.mem_singleton.mp hl
    obtain rfl : (⟨fun _ => 10, 1000⟩ : Permit ℕ) = permit := Option.some.inj hpermit
    simp only [Nat.reduceEqDiff, if_false]
    intro _
    decide
  have hadjust : ClientStep tenPerSecond reserved _ _ := .adjust reserved 7 ⟨fun _ => 10, 1000⟩
    (fun _ => 5) true rfl (by decide)
  have hsettled := hreserved.step ⟨hagrees, hadjust⟩
  obtain ⟨permit, hpermit, hrecorded⟩ := (one_entry_per_request hsettled).2 7 _ _ rfl
  refine ⟨_, hsettled, hrecorded tenUnits List.mem_cons_self ?_⟩
  obtain rfl : (⟨fun _ => 5, 1000⟩ : Permit ℕ) = permit := Option.some.inj hpermit
  decide

/-- **Two entries for one request, and a skipped adjust.** The reservation is adjusted to five units
and the reply is lost. An adjust to seven then leaves both entries; an adjust to ten, which the
permit still remembers, returns without a round trip and leaves five. -/
theorem lost_reply_disagrees :
    (∃ s : Clients ℕ ℕ, (clients tenPerSecond).Run
        [.adjust 7 (fun _ => 7) true, .adjust 7 (fun _ => 5) false, .acquire 7 fun _ => 10] s ∧
      recordedCosts 7 (s.server.store 0) = [5, 7]) ∧
    ∃ s : Clients ℕ ℕ, (clients tenPerSecond).Run
        [.adjust 7 (fun _ => 10) true, .adjust 7 (fun _ => 5) false, .acquire 7 fun _ => 10] s ∧
      recordedCosts 7 (s.server.store 0) = [5] := by
  have hstart : (clients tenPerSecond).Run [] unused := .start ⟨rfl, rfl⟩
  have hadjust : ClientStep tenPerSecond reserved _ _ := .adjust reserved 7 ⟨fun _ => 10, 1000⟩
    (fun _ => 5) false rfl (by decide)
  have hlost := (hstart.step admit_reserved).step hadjust
  refine ⟨⟨_, hlost.step (ClientStep.adjust _ 7 ⟨fun _ => 10, 1000⟩
    (fun _ => 7) true rfl (by decide)), ?_⟩, ⟨_, hlost.step (ClientStep.unchanged _ 7
    ⟨fun _ => 10, 1000⟩ (fun _ => 10) rfl (by decide)), ?_⟩⟩
  · decide
  · decide

end RedisSemaphore.RateLimiter
