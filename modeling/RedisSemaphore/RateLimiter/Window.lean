import RedisSemaphore.RateLimiter.Accounting
import RedisSemaphore.RateLimiter.Expiry
import RedisSemaphore.RateLimiter.Admission
import RedisSemaphore.SlidingWindow

/-!
# The sliding-window bound

`charges` reads off a trace what every admission was charged to a limit, lowering adjusts included,
and knows nothing of the logs. The simulation `Tracks` ties it to the log of the limit: inside the
window the two agree, and the log's deadline covers every entry. So the figure an acquire is checked
against is the window sum of the charges at that moment, and the step of `SlidingWindow` carries the
bound to every other position of the window.
-/

namespace RedisSemaphore.RateLimiter

open Redis Transition SlidingWindow

variable {κ ι : Type*}

/-! ## Charges of a trace -/

/-- What one admission was charged to a limit. -/
structure Charge (ι : Type*) where
  identifier : ι
  admittedAt : ℤ
  cost : ℕ
  deriving DecidableEq

/-- The log element of a charge. -/
def Charge.entry (c : Charge ι) : Scored (Member ι) := ⟨⟨c.cost, c.identifier⟩, c.admittedAt⟩

/-- The cost of a charge, in the arithmetic of the totals. -/
def Charge.weight (c : Charge ι) : ℤ := c.cost

/-- An adjust at time `t` replaces the cost of the request's charge while it is in the window. -/
def Charge.replace [DecidableEq ι] (l : Limit κ) (t : ℤ) (identifier : ι) (newCost : ℕ)
    (c : Charge ι) : Charge ι :=
  if c.identifier = identifier ∧ t - l.windowMs < c.admittedAt then { c with cost := newCost }
  else c

/-- The charges to `l` of all admissions of a trace. -/
def charges [DecidableEq ι] (l : Limit κ) : List (Event κ ι) → List (Charge ι)
  | [] => []
  | .call t (.acquire identifier cost) r :: tr =>
    if r.admitted then ⟨identifier, t, cost l.name⟩ :: charges l tr else charges l tr
  | .call t (.adjust identifier _ change) _ :: tr =>
    match change l.name with
    | some (_, newCost) => (charges l tr).map (Charge.replace l t identifier newCost)
    | none => charges l tr
  | .call _ .status _ :: tr => charges l tr
  | .wait _ :: tr => charges l tr
  | .expire _ _ :: tr => charges l tr
  | .lose _ _ :: tr => charges l tr

/-- The trace holds an admission of `identifier`. -/
def Admitted (tr : List (Event κ ι)) (identifier : ι) : Prop :=
  ∃ t cost r, Event.call t (.acquire identifier cost) r ∈ tr ∧ r.admitted = true

/-- What has been admitted stays so. -/
theorem Admitted.cons {tr : List (Event κ ι)} {identifier : ι} (e : Event κ ι)
    (h : Admitted tr identifier) : Admitted (e :: tr) identifier := by
  obtain ⟨t, cost, r, hmem, hr⟩ := h
  exact ⟨t, cost, r, List.mem_cons_of_mem e hmem, hr⟩

section Charges

variable [DecidableEq ι] {l : Limit κ} {t : ℤ} {identifier : ι} {newCost : ℕ} {c : Charge ι}

/-- An adjustment keeps when the charge was made. -/
@[simp] theorem admittedAt_replace :
    (c.replace l t identifier newCost).admittedAt = c.admittedAt := by
  rw [Charge.replace]
  split <;> rfl

/-- It keeps whose charge it is. -/
@[simp] theorem identifier_replace :
    (c.replace l t identifier newCost).identifier = c.identifier := by
  rw [Charge.replace]
  split <;> rfl

/-- The charges of others stay. -/
theorem replace_of_ne (h : c.identifier ≠ identifier) : c.replace l t identifier newCost = c :=
  if_neg fun hc => h hc.1

/-- Only admitted requests are charged. -/
theorem admitted_of_mem_charges {tr : List (Event κ ι)} (hc : c ∈ charges l tr) :
    Admitted tr c.identifier := by
  induction tr generalizing c with
  | nil => cases hc
  | cons e tr ih =>
    cases e with
    | call t call r =>
      cases call with
      | acquire identifier cost =>
        simp only [charges] at hc
        split at hc
        · rename_i hr
          rcases List.mem_cons.mp hc with rfl | hc
          · exact ⟨t, cost, r, List.mem_cons_self, hr⟩
          · exact (ih hc).cons _
        · exact (ih hc).cons _
      | adjust identifier acquiredAt change =>
        simp only [charges] at hc
        split at hc
        · obtain ⟨c', hc', rfl⟩ := List.mem_map.mp hc
          rw [identifier_replace]
          exact (ih hc').cons _
        · exact (ih hc).cons _
      | status => exact (ih hc).cons _
    | wait t => exact (ih hc).cons _
    | expire name kind => exact (ih hc).cons _
    | lose name kind => exact (ih hc).cons _

end Charges

/-! ## The runs of the bound -/

/-- An adjust lowers what a limit records: it names an admitted request by its admission time, and
while the request is in the window it names the recorded cost and asks for no more. A resent adjust
finds its new cost recorded already. A permit that is out of date names another cost: `ZREM` misses
the recorded one, and the new one is added to it. -/
def Lowers [DecidableEq ι] (l : Limit κ) (tr : List (Event κ ι)) (t : ℤ) (identifier : ι)
    (acquiredAt : ℤ) (oldCost newCost : ℕ) : Prop :=
  ∃ c ∈ charges l tr, c.identifier = identifier ∧ c.admittedAt = acquiredAt ∧
    (t - l.windowMs < acquiredAt →
      newCost ≤ c.cost ∧ (oldCost = c.cost ∨ newCost = c.cost))

/-- An admitted identifier is not used again, adjusts lower costs, and keys disappear only through
their deadlines. -/
def SlidingOk [DecidableEq ι] (cfg : Config κ) (tr : List (Event κ ι)) : Event κ ι → Prop
  | .call _ (.acquire identifier _) _ => ¬Admitted tr identifier
  | .call t (.adjust identifier acquiredAt change) _ =>
    ∀ l ∈ cfg.limits, ∀ oldCost newCost, change l.name = some (oldCost, newCost) →
      Lowers l tr t identifier acquiredAt oldCost newCost
  | .call _ .status _ => True
  | .wait _ => True
  | .expire _ _ => True
  | .lose _ _ => False

/-! ## The simulation -/

variable [LinearOrder (Member ι)]

/-- What ties the keys of a limit to the charges of the trace. -/
structure Tracks [DecidableEq ι] (l : Limit κ) (tr : List (Event κ ι)) (time : ℤ)
    (keys : LimitKeys ι) : Prop where
  charged : ∀ e ∈ keys.log.value.entries, ∃ c ∈ charges l tr, 0 < c.cost ∧ c.entry = e
  recorded : ∀ c ∈ charges l tr, 0 < c.cost → time - l.windowMs < c.admittedAt →
    c.entry ∈ keys.log.value.entries
  distinct : ((charges l tr).map Charge.identifier).Nodup
  past : ∀ c ∈ charges l tr, c.admittedAt ≤ time
  timely : Timely l time keys

section Tracks

variable [DecidableEq ι] {l : Limit κ} {tr : List (Event κ ι)} {time : ℤ} {keys : LimitKeys ι}

/-- There is one charge for each request. -/
theorem Tracks.charge_unique (h : Tracks l tr time keys) {c c' : Charge ι} (hc : c ∈ charges l tr)
    (hc' : c' ∈ charges l tr) (heq : c.identifier = c'.identifier) : c = c' :=
  List.inj_on_of_nodup_map h.distinct hc hc' heq

/-- Eviction alone keeps the simulation, whatever event it belongs to. -/
theorem Tracks.evicted (h : Tracks l tr time keys) {e : Event κ ι}
    (hsame : charges l (e :: tr) = charges l tr) :
    Tracks l (e :: tr) time (evict time (time - l.windowMs) (l.windowMs * 2) keys).2 where
  charged := by
    intro x hx
    rw [hsame]
    exact h.charged x (mem_log_evict.mp hx).1
  recorded := by
    intro c hc hpos hwin
    rw [hsame] at hc
    exact mem_log_evict.mpr ⟨h.recorded c hc hpos hwin, hwin⟩
  distinct := by rw [hsame]; exact h.distinct
  past := by rw [hsame]; exact h.past
  timely := h.timely.onLimit .status false (r := .used []) trivial

/-- Keys that are not touched keep the simulation as time passes. -/
theorem Tracks.mono (h : Tracks l tr time keys) {e : Event κ ι} {time' : ℤ}
    (hsame : charges l (e :: tr) = charges l tr) (hle : time ≤ time') :
    Tracks l (e :: tr) time' keys where
  charged := by rw [hsame]; exact h.charged
  recorded := by
    intro c hc hpos hwin
    rw [hsame] at hc
    exact h.recorded c hc hpos (by omega)
  distinct := by rw [hsame]; exact h.distinct
  past := by
    intro c hc
    rw [hsame] at hc
    exact (h.past c hc).trans hle
  timely := h.timely.mono hle

/-- A key that expires has outlived the window of everything in it. -/
theorem Tracks.expire (h : Tracks l tr time keys) {e : Event κ ι} (kind : KeyKind)
    (hsame : charges l (e :: tr) = charges l tr) :
    Tracks l (e :: tr) time (keys.expire kind time) where
  charged := by
    intro x hx
    rw [hsame]
    exact h.charged x (mem_of_mem_expire hx)
  recorded := by
    intro c hc hpos hwin
    rw [hsame] at hc
    exact h.timely.mem_expire kind (h.recorded c hc hpos hwin) hwin
  distinct := by rw [hsame]; exact h.distinct
  past := by rw [hsame]; exact h.past
  timely := h.timely.expire kind

/-- A recorded admission of a fresh identifier. -/
theorem Tracks.admits (h : Tracks l tr time keys) {identifier : ι} {cost : κ → ℕ} {r : Reply}
    (hr : r.admitted = true) (hfresh : ∀ c ∈ charges l tr, c.identifier ≠ identifier) :
    Tracks l (.call time (.acquire identifier cost) r :: tr) time
      ((Call.acquire identifier cost).onLimit true time l keys).2 := by
  have hcharges : charges l (.call time (.acquire identifier cost) r :: tr) =
      ⟨identifier, time, cost l.name⟩ :: charges l tr := if_pos hr
  have hnone : (evict time (time - l.windowMs) (l.windowMs * 2) keys).2.log.value.zscore
      ⟨cost l.name, identifier⟩ = none := by
    refine SortedSet.zscore_eq_none.mpr fun e he hm => ?_
    obtain ⟨c, hc, -, rfl⟩ := h.charged e (mem_log_evict.mp he).1
    exact hfresh c hc (congrArg Member.identifier hm)
  have hmem : ∀ e,
      e ∈ ((Call.acquire identifier cost).onLimit true time l keys).2.log.value.entries ↔
      (e ∈ keys.log.value.entries ∧ time - l.windowMs < e.score) ∨
        0 < cost l.name ∧ e = ⟨⟨cost l.name, identifier⟩, time⟩ := by
    intro e
    simp only [Call.onLimit, if_true]
    rw [mem_log_recordLimit _ _ _ _ ⟨l.name, l.limit, l.windowMs, cost l.name⟩ _ l.window_pos,
      mem_log_evict]
    simp only [hnone, true_and]
  have hcharged :
      ∀ e ∈ ((Call.acquire identifier cost).onLimit true time l keys).2.log.value.entries,
        ∃ c ∈ charges l (.call time (.acquire identifier cost) r :: tr),
          0 < c.cost ∧ c.entry = e := by
    intro e he
    rw [hcharges]
    rcases (hmem e).mp he with ⟨he, -⟩ | ⟨hpos, rfl⟩
    · obtain ⟨c, hc, hrest⟩ := h.charged e he
      exact ⟨c, List.mem_cons_of_mem _ hc, hrest⟩
    · exact ⟨_, List.mem_cons_self, hpos, rfl⟩
  have hpast : ∀ c ∈ charges l (.call time (.acquire identifier cost) r :: tr),
      c.admittedAt ≤ time := by
    rw [hcharges, List.forall_mem_cons]
    exact ⟨le_rfl, h.past⟩
  refine ⟨hcharged, ?_, ?_, hpast, h.timely.onLimit _ _ (r := r) trivial⟩
  · rw [hcharges, List.forall_mem_cons]
    refine ⟨fun hpos _ => (hmem _).mpr (Or.inr ⟨hpos, rfl⟩), fun c hc hpos hwin => ?_⟩
    exact (hmem _).mpr (Or.inl ⟨h.recorded c hc hpos hwin, hwin⟩)
  · rw [hcharges, List.map_cons, List.nodup_cons]
    refine ⟨fun hin => ?_, h.distinct⟩
    obtain ⟨c, hc, heq⟩ := List.mem_map.mp hin
    exact hfresh c hc heq

/-- A lowering adjust. -/
theorem Tracks.lower (h : Tracks l tr time keys) {identifier : ι} {acquiredAt : ℤ}
    {change : κ → Option (ℕ × ℕ)} {r : Reply} {admitted : Bool} {oldCost newCost : ℕ}
    (hchange : change l.name = some (oldCost, newCost))
    (hlowers : Lowers l tr time identifier acquiredAt oldCost newCost) :
    Tracks l (.call time (.adjust identifier acquiredAt change) r :: tr) time
      ((Call.adjust identifier acquiredAt change).onLimit admitted time l keys).2 := by
  obtain ⟨c₀, hc₀, rfl, rfl, hlow⟩ := hlowers
  have hcharges : charges l (.call time (.adjust c₀.identifier c₀.admittedAt change) r :: tr) =
      (charges l tr).map (Charge.replace l time c₀.identifier newCost) := by
    simp only [charges, hchange]
  have hmem : ∀ e, e ∈ ((Call.adjust c₀.identifier c₀.admittedAt change).onLimit admitted time l
      keys).2.log.value.entries ↔
      (0 < newCost ∧ time - l.windowMs < c₀.admittedAt ∧
        e = ⟨⟨newCost, c₀.identifier⟩, c₀.admittedAt⟩) ∨
      ¬(0 < newCost ∧ time - l.windowMs < c₀.admittedAt ∧
          e.member = ⟨newCost, c₀.identifier⟩) ∧
        ¬(0 < oldCost ∧ e.member = ⟨oldCost, c₀.identifier⟩) ∧
        e ∈ keys.log.value.entries ∧ time - l.windowMs < e.score := by
    intro e
    simp only [Call.onLimit, hchange, Option.getD_some]
    exact mem_log_adjustLimit _ _ _ _ ⟨l.name, l.windowMs, oldCost, newCost⟩ _ l.window_pos
  -- a charge of another request is not the entry an adjust looks for
  have hother : ∀ {c : Charge ι} {cost : ℕ}, c.identifier ≠ c₀.identifier →
      c.entry.member ≠ ⟨cost, c₀.identifier⟩ :=
    fun hne heq => hne (congrArg Member.identifier heq)
  have hcharged : ∀ e ∈ ((Call.adjust c₀.identifier c₀.admittedAt change).onLimit admitted time l
      keys).2.log.value.entries,
      ∃ c ∈ charges l (.call time (.adjust c₀.identifier c₀.admittedAt change) r :: tr),
        0 < c.cost ∧ c.entry = e := by
    intro e he
    rw [hcharges]
    rcases (hmem e).mp he with ⟨hpos, hwin, rfl⟩ | ⟨hnew, hold, he, hwin⟩
    · refine ⟨_, List.mem_map_of_mem hc₀, ?_⟩
      rw [Charge.replace, if_pos ⟨rfl, hwin⟩]
      exact ⟨hpos, rfl⟩
    · obtain ⟨c, hc, hpos, rfl⟩ := h.charged e he
      have hne : c.identifier ≠ c₀.identifier := by
        intro heq
        obtain rfl := h.charge_unique hc hc₀ heq
        rcases (hlow hwin).2 with rfl | rfl
        · exact hold ⟨hpos, rfl⟩
        · exact hnew ⟨hpos, hwin, rfl⟩
      exact ⟨c, List.mem_map.mpr ⟨c, hc, replace_of_ne hne⟩, hpos, rfl⟩
  have hpast : ∀ c ∈ charges l (.call time (.adjust c₀.identifier c₀.admittedAt change) r :: tr),
      c.admittedAt ≤ time := by
    rw [hcharges]
    intro c hc
    obtain ⟨c', hc', rfl⟩ := List.mem_map.mp hc
    rw [admittedAt_replace]
    exact h.past c' hc'
  refine ⟨hcharged, ?_, ?_, hpast, h.timely.onLimit _ _ (r := r) (h.past c₀ hc₀)⟩
  · rw [hcharges]
    intro c hc hpos hwin
    obtain ⟨c', hc', rfl⟩ := List.mem_map.mp hc
    rw [admittedAt_replace] at hwin
    by_cases heq : c'.identifier = c₀.identifier
    · obtain rfl := h.charge_unique hc' hc₀ heq
      rw [Charge.replace, if_pos ⟨rfl, hwin⟩] at hpos ⊢
      exact (hmem _).mpr (Or.inl ⟨hpos, hwin, rfl⟩)
    · rw [replace_of_ne heq] at hpos ⊢
      exact (hmem _).mpr (Or.inr ⟨fun hnew => hother heq hnew.2.2, fun hold => hother heq hold.2,
        h.recorded c' hc' hpos hwin, hwin⟩)
  · rw [hcharges, List.map_map]
    have hsame : Charge.identifier ∘ Charge.replace l time c₀.identifier newCost
        = Charge.identifier := funext fun c => identifier_replace
    rw [hsame]
    exact h.distinct

end Tracks

/-! ## The bound -/

/-- The charges of a limit with an admission time in `(p - window, p]`. -/
def chargedIn [DecidableEq ι] (l : Limit κ) (tr : List (Event κ ι)) (p : ℤ) : ℤ :=
  windowSum Charge.admittedAt Charge.weight l.windowMs p (charges l tr)

omit [LinearOrder (Member ι)] in
/-- Costs are not negative. -/
theorem weight_nonneg (c : Charge ι) : 0 ≤ c.weight := Int.natCast_nonneg c.cost

section Bound

variable [DecidableEq ι] {l : Limit κ} {tr : List (Event κ ι)} {time : ℤ} {keys : LimitKeys ι}

/-- The figure an acquire checks is at least the window sum of the charges. -/
theorem Tracks.chargedIn_le (h : Tracks l tr time keys) (hkeys : Consistent keys) (ttlMs : ℤ) :
    chargedIn l tr time ≤ (evict time (time - l.windowMs) ttlMs keys).1 := by
  rw [(evict_accounted _ _ _ hkeys).2, sumCosts]
  refine windowSum_le_records (g := Charge.entry) (fun e => Int.natCast_nonneg e.member.cost) ?_ ?_
  · refine List.Nodup.of_map (fun e => e.member.identifier) ?_
    rw [List.map_map]
    exact h.distinct
  · intro c hc hwin hne
    have hpos : 0 < c.cost := by
      refine Nat.pos_of_ne_zero fun hzero => hne ?_
      rw [Charge.weight, hzero]
      rfl
    exact ⟨mem_log_evict.mpr ⟨h.recorded c hc hpos hwin, hwin⟩, rfl⟩

omit [LinearOrder (Member ι)] in
/-- **An admission keeps every window position within the limit.** -/
theorem chargedIn_admit {identifier : ι} {cost : κ → ℕ} {r : Reply} (hr : r.admitted = true)
    (hpast : ∀ c ∈ charges l tr, c.admittedAt ≤ time)
    (hold : ∀ p, chargedIn l tr p ≤ l.limit)
    (hroom : 0 < cost l.name → chargedIn l tr time + cost l.name ≤ l.limit) (p : ℤ) :
    chargedIn l (.call time (.acquire identifier cost) r :: tr) p ≤ l.limit := by
  have hcharges : charges l (.call time (.acquire identifier cost) r :: tr) =
      ⟨identifier, time, cost l.name⟩ :: charges l tr := if_pos hr
  rw [chargedIn, hcharges]
  refine windowSum_cons_le weight_nonneg hpast hold ?_ p
  have hnow := hold time
  simp only [Charge.weight]
  by_cases hpos : 0 < cost l.name
  · have := hroom hpos
    rw [chargedIn] at this
    omega
  · rw [chargedIn] at hnow
    omega

/-- A lowering adjust lowers every window position. -/
theorem Tracks.chargedIn_lower (h : Tracks l tr time keys) {identifier : ι} {acquiredAt : ℤ}
    {change : κ → Option (ℕ × ℕ)} {r : Reply} {oldCost newCost : ℕ}
    (hchange : change l.name = some (oldCost, newCost))
    (hlowers : Lowers l tr time identifier acquiredAt oldCost newCost) (p : ℤ) :
    chargedIn l (.call time (.adjust identifier acquiredAt change) r :: tr) p ≤
      chargedIn l tr p := by
  obtain ⟨c₀, hc₀, rfl, rfl, hlow⟩ := hlowers
  have hcharges : charges l (.call time (.adjust c₀.identifier c₀.admittedAt change) r :: tr) =
      (charges l tr).map (Charge.replace l time c₀.identifier newCost) := by
    simp only [charges, hchange]
  rw [chargedIn, chargedIn, hcharges]
  refine windowSum_map_le (fun c => admittedAt_replace) (fun c hc => ?_) p
  rw [Charge.replace]
  split
  · rename_i heq
    obtain rfl := h.charge_unique hc hc₀ heq.1
    exact Int.ofNat_le.mpr (hlow heq.2).1
  · exact le_rfl

end Bound

variable [DecidableEq κ] [DecidableEq ι] {cfg : Config κ}

/-- The invariant of the bound, for one limit. -/
def Bounded (l : Limit κ) (tr : List (Event κ ι)) (s : Server κ ι) : Prop :=
  Tracks l tr s.time (s.store l.name) ∧ ∀ p, chargedIn l tr p ≤ l.limit

/-- An admitted acquire of a fresh identifier. -/
theorem Bounded.admits {l : Limit κ} {tr : List (Event κ ι)} {s : Server κ ι} {identifier : ι}
    {cost : κ → ℕ} (hall : ∀ l ∈ cfg.limits, Bounded l tr s)
    (hkeys : ∀ name, Consistent (s.store name)) (hl : l ∈ cfg.limits)
    (hfresh : ¬Admitted tr identifier)
    (hr : (exec cfg (.acquire identifier cost) s.time s.store).1.admitted = true) :
    Bounded l (.call s.time (.acquire identifier cost)
        (exec cfg (.acquire identifier cost) s.time s.store).1 :: tr)
      { s with store := (exec cfg (.acquire identifier cost) s.time s.store).2 } := by
  obtain ⟨htracks, hbound⟩ := hall l hl
  have hnew : ∀ l ∈ cfg.limits, ∀ c ∈ charges l tr, c.identifier ≠ identifier :=
    fun l _ c hc heq => hfresh (heq ▸ admitted_of_mem_charges hc)
  refine ⟨?_, chargedIn_admit hr htracks.past hbound fun hpos => ?_⟩
  · have hstore := exec_touched cfg s.time s.store (.acquire identifier cost) hl
    simp only [hstore, hr]
    exact htracks.admits hr (hnew l hl)
  · -- nothing is recorded under a fresh identifier, so every charged limit was checked
    have hnot : ∀ a ∈ acquireArgs cfg cost, ¬Recorded identifier a.cost
        (evict s.time (s.time - a.windowMs) (a.windowMs * 2) (s.store a.name)).2 := by
      intro a ha
      obtain ⟨l', hl', rfl⟩ := List.mem_map.mp ha
      rintro ⟨-, hsome⟩
      obtain ⟨score, hscore⟩ := Option.isSome_iff_exists.mp hsome
      obtain ⟨c, hc, -, heq⟩ := (hall l' hl').1.charged _
        (mem_log_evict.mp (SortedSet.zscore_eq_some.mp hscore)).1
      exact hnew l' hl' c hc (congrArg (fun e => e.member.identifier) heq)
    have hroom := (admitted_iff_fits.mp hr).le hnot
      ⟨l.name, l.limit, l.windowMs, cost l.name⟩ (List.mem_map_of_mem hl) hpos
    have hsum := htracks.chargedIn_le (hkeys l.name) (l.windowMs * 2)
    simp only at hroom
    omega

/-- **One step** of the bound. -/
theorem bounded_step {tr : List (Event κ ι)} {s s' : Server κ ι} {e : Event κ ι}
    (hall : ∀ l ∈ cfg.limits, Bounded l tr s) (hkeys : ∀ name, Consistent (s.store name))
    (hok : SlidingOk cfg tr e) (hs : Step cfg s e s') :
    ∀ l ∈ cfg.limits, Bounded l (e :: tr) s' := by
  intro l hl
  obtain ⟨htracks, hbound⟩ := hall l hl
  cases hs with
  | call c =>
    cases c with
    | acquire identifier cost =>
      by_cases hr : (exec cfg (.acquire identifier cost) s.time s.store).1.admitted = true
      · exact Bounded.admits hall hkeys hl hok hr
      · have hsame : charges l (.call s.time (.acquire identifier cost)
            (exec cfg (.acquire identifier cost) s.time s.store).1 :: tr) = charges l tr :=
          if_neg hr
        have hstore := exec_touched cfg s.time s.store (.acquire identifier cost) hl
        rw [Bool.not_eq_true] at hr
        refine ⟨?_, fun p => by rw [chargedIn, hsame]; exact hbound p⟩
        simp only [hstore, hr]
        exact htracks.evicted hsame
    | adjust identifier acquiredAt change =>
      cases hchange : change l.name with
      | none =>
        have hsame : charges l (.call s.time (.adjust identifier acquiredAt change)
            (exec cfg (.adjust identifier acquiredAt change) s.time s.store).1 :: tr)
            = charges l tr := by
          simp only [charges, hchange]
        have huntouched : ∀ l' ∈ (Call.adjust identifier acquiredAt change).touched cfg,
            l'.name ≠ l.name := by
          intro l' hl' heq
          have hchanged := (mem_changedLimits.mp hl').2
          rw [heq, hchange] at hchanged
          cases hchanged
        have hstore := exec_untouched cfg s.time s.store _ huntouched
        refine ⟨?_, fun p => by rw [chargedIn, hsame]; exact hbound p⟩
        simp only [hstore]
        exact htracks.mono hsame le_rfl
      | some costs =>
        -- the adjustment raises nothing that is in the window
        obtain ⟨oldCost, newCost⟩ := costs
        have hlowers := hok l hl oldCost newCost hchange
        have hstore := exec_touched cfg s.time s.store
          (.adjust identifier acquiredAt change) (l := l)
          (mem_changedLimits.mpr ⟨hl, by rw [hchange]; rfl⟩)
        refine ⟨?_, fun p => (htracks.chargedIn_lower hchange hlowers p).trans (hbound p)⟩
        simp only [hstore]
        exact htracks.lower hchange hlowers
    | status =>
      have hstore := exec_touched cfg s.time s.store .status hl
      refine ⟨?_, hbound⟩
      simp only [hstore]
      exact htracks.evicted rfl
  | wait time hle => exact ⟨htracks.mono rfl hle, hbound⟩
  | expire name kind =>
    refine ⟨?_, hbound⟩
    by_cases hname : l.name = name
    · subst hname
      simp only [Function.update_self]
      exact htracks.expire kind rfl
    · simp only [Function.update_of_ne hname]
      exact htracks.mono rfl le_rfl
  | lose name kind => exact absurd hok id

/-- The invariant holds in every run: by induction on the run, over the store lemmas above. -/
theorem bounded_of_run {tr : List (Event κ ι)} {s : Server κ ι} (h : (system cfg).Run tr s)
    (hok : Guarded (SlidingOk cfg) tr) : ∀ l ∈ cfg.limits, Bounded l tr s := by
  refine System.Run.invariant (M := system cfg)
    (I := fun tr s => Guarded (SlidingOk cfg) tr → ∀ l ∈ cfg.limits, Bounded l tr s) ?_ ?_ h hok
  · intro s hs _ l _
    refine ⟨?_, fun p => Int.natCast_nonneg l.limit⟩
    rw [hs]
    exact ⟨fun e he => (by cases he), fun c hc => (by cases hc), List.nodup_nil,
      fun c hc => (by cases hc), timely_initial⟩
  · rintro tr s e s' hrun ih hs ⟨hok, hguard⟩
    exact bounded_step (ih hguard) (consistent_of_run hrun) hok hs

/-- **The sliding-window bound.** In every run in which admitted identifiers are not used again,
adjusts only lower costs and keys disappear only through their deadlines: inside the window the log
of a limit records exactly its charges, and for every position `p` of the window the charges with an
admission time in `(p - window, p]` sum to at most the limit. -/
theorem window_never_exceeded {tr : List (Event κ ι)} {s : Server κ ι}
    (h : (system cfg).Run tr s) (hok : Guarded (SlidingOk cfg) tr) :
    ∀ l ∈ cfg.limits,
      (∀ e, s.time - l.windowMs < e.score → (e ∈ (s.store l.name).log.value.entries ↔
        ∃ c ∈ charges l tr, 0 < c.cost ∧ c.entry = e)) ∧
      ∀ p, chargedIn l tr p ≤ l.limit := by
  intro l hl
  obtain ⟨htracks, hbound⟩ := bounded_of_run h hok l hl
  refine ⟨fun e hwin => ⟨htracks.charged e, ?_⟩, hbound⟩
  rintro ⟨c, hc, hpos, rfl⟩
  exact htracks.recorded c hc hpos hwin

/-- Two admissions fill a limit of ten, and the first is then lowered to one unit. -/
def lowered : List (Event ℕ ℕ) :=
  [.call 1000 (.adjust 7 1000 fun _ => some (4, 1)) (.used [7]),
    .call 1000 (.acquire 8 fun _ => 6) (.acquire ⟨true, 0, 1000, [10]⟩),
    .call 1000 (.acquire 7 fun _ => 4) (.acquire ⟨true, 0, 1000, [4]⟩)]

/-- A charge is lowered, and what it gave back is charged again. -/
theorem window_never_exceeded_lowered :
    chargedIn tenUnits lowered 1300 = 7 ∧ ∀ p, chargedIn tenUnits lowered p ≤ 10 := by
  have hstart : (system tenPerSecond).Run [] (⟨1000, fun _ => LimitKeys.initial⟩ : Server ℕ ℕ) :=
    .start rfl
  have hfirst := hstart.step (.call _ (.acquire 7 fun _ => 4))
  have hsecond := hfirst.step (.call _ (.acquire 8 fun _ => 6))
  have hrun : (system tenPerSecond).Run lowered _ :=
    hsecond.step (.call _ (.adjust 7 1000 fun _ => some (4, 1)))
  have hok : Guarded (SlidingOk tenPerSecond) lowered := by
    refine ⟨?_, ?_, ?_, trivial⟩
    · rintro l hl oldCost newCost ⟨⟩
      obtain rfl := List.mem_singleton.mp hl
      exact ⟨⟨7, 1000, 4⟩, by decide, rfl, rfl, fun _ => by decide⟩
    · rintro ⟨t, cost, r, hmem, -⟩
      simp at hmem
    · rintro ⟨t, cost, r, hmem, -⟩
      cases hmem
  exact ⟨by decide, (window_never_exceeded hrun hok tenUnits List.mem_cons_self).2⟩

/-! ## A permit that is out of date -/

/-- What the bound is promised under: an admitted identifier is not used again, no cost exceeds its
limit, an adjust names an admitted request by its admission time and asks for no more than the
permit says and than the request is charged, and keys disappear only through their deadlines.
Nothing is asked of the cost that an adjust calls the old one: a permit whose last adjust has lost
its reply does not know the recorded cost. -/
def LoweringOnly (cfg : Config κ) (tr : List (Event κ ι)) : Event κ ι → Prop
  | .call _ (.acquire identifier cost) _ =>
    ¬Admitted tr identifier ∧ ∀ l ∈ cfg.limits, cost l.name ≤ l.limit
  | .call _ (.adjust identifier acquiredAt change) _ =>
    ∀ l ∈ cfg.limits, ∀ oldCost newCost, change l.name = some (oldCost, newCost) →
      newCost ≤ oldCost ∧ oldCost ≤ l.limit ∧ ∃ c ∈ charges l tr,
        c.identifier = identifier ∧ c.admittedAt = acquiredAt ∧ newCost ≤ c.cost
  | .call _ .status _ => True
  | .wait _ => True
  | .expire _ _ => True
  | .lose _ _ => False

/-- Request `7` is admitted with ten units and lowered to five, but the reply is lost. Request `8`
takes the five units that are free. The permit of request `7` still says ten when it is lowered to
three. -/
def stale : List (Event ℕ ℕ) :=
  [.call 1000 (.adjust 7 1000 fun _ => some (10, 3)) (.used [13]),
    .call 1000 (.acquire 8 fun _ => 5) (.acquire ⟨true, 0, 1000, [10]⟩),
    .call 1000 (.adjust 7 1000 fun _ => some (10, 5)) (.used [5]),
    .call 1000 (.acquire 7 fun _ => 10) (.acquire ⟨true, 0, 1000, [10]⟩)]

/-- **A window over its limit, although every adjust lowers.** The last adjust looks for `10:7`,
which the log does not hold any more, and adds `3:7` beside `5:7`. The log records thirteen units in
a window of ten. -/
theorem stale_adjust_overfills : ∃ s : Server ℕ ℕ, (system tenPerSecond).Run stale s ∧
    Guarded (LoweringOnly tenPerSecond) stale ∧ s.time = 1000 ∧
    (s.store 0).log.value.entries =
      [⟨⟨3, 7⟩, 1000⟩, ⟨⟨5, 7⟩, 1000⟩, ⟨⟨5, 8⟩, 1000⟩] ∧
    sumAfter (1000 - tenUnits.windowMs) (s.store 0).log.value.entries = 13 ∧
    tenUnits.limit = 10 := by
  have hstart : (system tenPerSecond).Run [] (⟨1000, fun _ => LimitKeys.initial⟩ : Server ℕ ℕ) :=
    .start rfl
  have hfull := hstart.step (.call _ (.acquire 7 fun _ => 10))
  have hlost := hfull.step (.call _ (.adjust 7 1000 fun _ => some (10, 5)))
  have hother := hlost.step (.call _ (.acquire 8 fun _ => 5))
  have hrun : (system tenPerSecond).Run stale _ :=
    hother.step (.call _ (.adjust 7 1000 fun _ => some (10, 3)))
  -- both adjusts ask for less than the permit says and than the request is charged
  have hok : Guarded (LoweringOnly tenPerSecond) stale := by
    refine ⟨?_, ⟨?_, ?_⟩, ?_, ⟨?_, ?_⟩, trivial⟩
    · rintro l hl oldCost newCost ⟨⟩
      obtain rfl := List.mem_singleton.mp hl
      exact ⟨by decide, by decide, ⟨7, 1000, 5⟩, by decide, rfl, rfl, by decide⟩
    · rintro ⟨t, cost, r, hmem, -⟩
      simp at hmem
    · intro l hl
      obtain rfl := List.mem_singleton.mp hl
      decide
    · rintro l hl oldCost newCost ⟨⟩
      obtain rfl := List.mem_singleton.mp hl
      exact ⟨by decide, by decide, ⟨7, 1000, 10⟩, by decide, rfl, rfl, by decide⟩
    · rintro ⟨t, cost, r, hmem, -⟩
      cases hmem
    · intro l hl
      obtain rfl := List.mem_singleton.mp hl
      decide
  exact ⟨_, hrun, hok, rfl, by decide, by decide, rfl⟩

end RedisSemaphore.RateLimiter
