import RedisSemaphore.RateLimiter.Accounting

/-!
# An adjust replaces one cost

Where the entries of a request agree with its permit, an adjust takes away the old cost and puts the
new one at the admission time, and what it leaves does not depend on the cost it took away:
`mem_log_adjusted`. The totals follow from the logs, so two adjusts at one time are one.
-/

namespace RedisSemaphore.RateLimiter

open Redis Transition

variable {κ ι : Type*} [LinearOrder (Member ι)]

/-- The entries a log has of a request are those its permit accounts for. -/
def ChargedAs (identifier : ι) (acquiredAt : ℤ) (cost : ℕ) (keys : LimitKeys ι) : Prop :=
  ∀ e ∈ keys.log.value.entries, e.member.identifier = identifier →
    0 < cost ∧ e = ⟨⟨cost, identifier⟩, acquiredAt⟩

/-- The changes of some limits: their old and new costs. -/
def changing (p : κ → Bool) (old new : κ → ℕ) : κ → Option (ℕ × ℕ) :=
  fun name => if p name then some (old name, new name) else none

/-- `_adjust_args`: only the limits whose cost changes go to the script. -/
def changes (old new : κ → ℕ) : κ → Option (ℕ × ℕ) :=
  changing (fun name => new name ≠ old name) old new

section Limit

variable [DecidableEq ι] {identifier : ι} {nowMs time acquiredAt : ℤ} {arg : AdjustArg κ}
  {keys : LimitKeys ι}

/-- **The log after an adjust** of a request whose entries agree with its permit. -/
theorem mem_log_adjusted (hwindow : 0 < arg.windowMs)
    (hcharged : ChargedAs identifier acquiredAt arg.oldCost keys) {e : Scored (Member ι)} :
    e ∈ (adjustLimit identifier nowMs time acquiredAt arg keys).2.log.value.entries ↔
      if e.member.identifier = identifier then
        0 < arg.newCost ∧ nowMs - arg.windowMs < acquiredAt ∧
          e = ⟨⟨arg.newCost, identifier⟩, acquiredAt⟩
      else e ∈ keys.log.value.entries ∧ nowMs - arg.windowMs < e.score := by
  rw [mem_log_adjustLimit _ _ _ _ _ _ hwindow]
  split
  · rename_i hid
    refine ⟨fun h => h.resolve_right ?_, Or.inl⟩
    -- what is there of the request is the old cost, and that is taken away
    rintro ⟨-, hold, hmem, -⟩
    obtain ⟨hpos, heq⟩ := hcharged e hmem hid
    exact hold ⟨hpos, congrArg Scored.member heq⟩
  · rename_i hid
    constructor
    · rintro (⟨-, -, rfl⟩ | ⟨-, -, hkept⟩)
      · exact absurd rfl hid
      · exact hkept
    · intro hkept
      refine Or.inr ⟨fun hnew => hid ?_, fun hold => hid ?_, hkept⟩
      · rw [hnew.2.2]
      · rw [hold.2]

/-- After an adjust the entries agree with the new cost. -/
theorem ChargedAs.adjustLimit (hwindow : 0 < arg.windowMs)
    (hcharged : ChargedAs identifier acquiredAt arg.oldCost keys) :
    ChargedAs identifier acquiredAt arg.newCost
      (adjustLimit identifier nowMs time acquiredAt arg keys).2 := by
  intro e he hid
  rw [mem_log_adjusted hwindow hcharged, if_pos hid] at he
  exact ⟨he.1, he.2.2⟩

/-- **Two adjusts of one limit** are one, whatever the cost between them. -/
theorem log_adjustLimit_twice {name : κ} {windowMs c₀ c₁ c₂ : ℕ} (hwindow : 0 < windowMs)
    (hcharged : ChargedAs identifier acquiredAt c₀ keys) :
    (adjustLimit identifier nowMs time acquiredAt ⟨name, windowMs, c₁, c₂⟩
        (adjustLimit identifier nowMs time acquiredAt ⟨name, windowMs, c₀, c₁⟩
          keys).2).2.log.value =
      (adjustLimit identifier nowMs time acquiredAt ⟨name, windowMs, c₀, c₂⟩ keys).2.log.value := by
  have hcharged' : ChargedAs identifier acquiredAt c₁
      (adjustLimit identifier nowMs time acquiredAt ⟨name, windowMs, c₀, c₁⟩ keys).2 :=
    ChargedAs.adjustLimit (by exact hwindow) hcharged
  apply SortedSet.ext_mem
  intro e
  have hdirect : e ∈ (adjustLimit identifier nowMs time acquiredAt ⟨name, windowMs, c₀, c₂⟩
      keys).2.log.value.entries ↔ _ := mem_log_adjusted (by exact hwindow) hcharged
  rw [hdirect, mem_log_adjusted (by exact hwindow) hcharged']
  split
  · exact Iff.rfl
  · rename_i hid
    rw [mem_log_adjusted (by exact hwindow) hcharged, if_neg hid]
    simp only [and_assoc, and_self]

/-- The entries of one identifier, when they can only be one. -/
theorem filter_entries_eq {z : SortedSet (Member ι)} {identifier : ι} {x : Scored (Member ι)}
    {P : Prop} [Decidable P]
    (h : ∀ e, e.member.identifier = identifier → (e ∈ z.entries ↔ P ∧ e = x))
    (hx : x.member.identifier = identifier) :
    z.entries.filter (fun e => e.member.identifier = identifier) = if P then [x] else [] := by
  have hnodup : (z.entries.filter fun e => e.member.identifier = identifier).Nodup :=
    (List.Nodup.of_map _ z.nodup).filter _
  split
  · rename_i hP
    have hperm : (z.entries.filter fun e => e.member.identifier = identifier).Perm [x] := by
      refine (List.perm_ext_iff_of_nodup hnodup (List.nodup_singleton x)).mpr fun e => ?_
      rw [List.mem_filter, List.mem_singleton, decide_eq_true_eq]
      constructor
      · rintro ⟨hmem, hid⟩
        exact ((h e hid).mp hmem).2
      · rintro rfl
        exact ⟨(h e hx).mpr ⟨hP, rfl⟩, hx⟩
    exact List.perm_singleton.mp hperm
  · rename_i hP
    rw [List.filter_eq_nil_iff]
    intro e hmem hid
    rw [decide_eq_true_eq] at hid
    exact hP ((h e hid).mp hmem).1

end Limit

/-! ## The script -/

section Script

variable [DecidableEq κ] {cfg : Config κ} {identifier : ι} {acquiredAt time : ℤ} {p : κ → Bool}
  {old new : κ → ℕ} {store : κ → LimitKeys ι}

omit [DecidableEq κ] [LinearOrder (Member ι)] in
theorem touched_changing : (Call.adjust identifier acquiredAt (changing p old new)).touched cfg =
    cfg.limits.filter fun l => p l.name := by
  show changedLimits cfg _ = _
  unfold changedLimits
  apply List.filter_congr
  intro l _
  unfold changing
  split
  · rename_i hp
    exact hp.symm
  · rename_i hp
    rw [Bool.not_eq_true] at hp
    exact hp.symm

/-- What an adjust does to a limit it is handed. -/
theorem exec_changing {l : Limit κ} (hl : l ∈ cfg.limits) (hp : p l.name = true) :
    (exec cfg (.adjust identifier acquiredAt (changing p old new)) time store).2 l.name =
      (adjustLimit identifier time time acquiredAt
        ⟨l.name, l.windowMs, old l.name, new l.name⟩ (store l.name)).2 := by
  have hsome : changing p old new l.name = some (old l.name, new l.name) := if_pos hp
  have htouched : l ∈ (Call.adjust identifier acquiredAt (changing p old new)).touched cfg := by
    rw [touched_changing, List.mem_filter]
    exact ⟨hl, hp⟩
  rw [exec_touched _ _ _ _ htouched]
  simp only [Call.onLimit, hsome, Option.getD_some]

/-- A limit that is not handed to an adjust keeps its keys. -/
theorem exec_changing_of_not {name : κ} (h : ∀ l ∈ cfg.limits, l.name = name → p name = false) :
    (exec cfg (.adjust identifier acquiredAt (changing p old new)) time store).2 name =
      store name := by
  apply exec_untouched
  intro l hl heq
  rw [touched_changing, List.mem_filter, heq] at hl
  rw [h l hl.1 heq] at hl
  exact Bool.false_ne_true hl.2

/-- A script reports the sums of the logs it leaves. -/
theorem figures_exec (hconsistent : ∀ name, Consistent (store name)) (call : Call κ ι) :
    (exec cfg call time store).1.figures = (call.touched cfg).map fun l =>
      sumCosts ((exec cfg call time store).2 l.name).log.value.entries := by
  have hsums : List.Forall₂
      (fun l used => used = sumCosts ((exec cfg call time store).2 l.name).log.value.entries)
      (call.touched cfg) (exec cfg call time store).1.figures :=
    exec_forall₂ (P := fun _ used keys => used = sumCosts keys.log.value.entries)
      fun l _ => (onLimit_accounted (hconsistent l.name)).2
  rw [List.forall₂_iff_get] at hsums
  refine List.ext_get (by rw [List.length_map, hsums.1]) fun i hi hi' => ?_
  rw [hsums.2 i (by rwa [List.length_map] at hi') hi]
  simp

/-- **Two adjusts of the same limits at one time** leave what one leaves. -/
theorem changing_twice [DecidableEq ι] {c₀ c₁ c₂ : κ → ℕ}
    (hconsistent : ∀ name, Consistent (store name))
    (hcharged : ∀ l ∈ cfg.limits, ChargedAs identifier acquiredAt (c₀ l.name) (store l.name)) :
    let first := exec cfg (.adjust identifier acquiredAt (changing p c₀ c₁)) time store
    let second := exec cfg (.adjust identifier acquiredAt (changing p c₁ c₂)) time first.2
    let direct := exec cfg (.adjust identifier acquiredAt (changing p c₀ c₂)) time store
    ∀ name, (second.2 name).log.value = (direct.2 name).log.value ∧
      (second.2 name).total.get = (direct.2 name).total.get := by
  intro first second direct name
  by_cases hhanded : ∃ l ∈ cfg.limits, l.name = name ∧ p name = true
  · obtain ⟨l, hl, rfl, hp⟩ := hhanded
    have hfirst : first.2 l.name = _ := exec_changing hl hp
    have hsecond : second.2 l.name = _ := exec_changing hl hp
    have hdirect : direct.2 l.name = _ := exec_changing hl hp
    have hlog : (second.2 l.name).log.value = (direct.2 l.name).log.value := by
      rw [hsecond, hdirect, hfirst]
      exact log_adjustLimit_twice l.window_pos (hcharged l hl)
    have honce : Consistent (first.2 l.name) := by
      rw [hfirst]
      exact (adjustLimit_accounted (by exact l.window_pos) (hconsistent l.name)).1.consistent
    have htwice : Accounted (second.2 l.name) := by
      rw [hsecond]
      exact (adjustLimit_accounted (by exact l.window_pos) honce).1
    have hstraight : Accounted (direct.2 l.name) := by
      rw [hdirect]
      exact (adjustLimit_accounted (by exact l.window_pos) (hconsistent l.name)).1
    refine ⟨hlog, ?_⟩
    rw [htwice, hstraight, hlog]
  · have hnot : ∀ l ∈ cfg.limits, l.name = name → p name = false := by
      intro l hl heq
      rw [← Bool.not_eq_true]
      exact fun hp => hhanded ⟨l, hl, heq, hp⟩
    have hfirst : first.2 name = _ := exec_changing_of_not hnot
    have hsecond : second.2 name = _ := exec_changing_of_not hnot
    have hdirect : direct.2 name = _ := exec_changing_of_not hnot
    rw [hsecond, hfirst, hdirect]
    exact ⟨rfl, rfl⟩

end Script

/-- **An adjust replaces one cost, and nothing else.** In a state a limiter can be in, for a request
whose entries agree with its permit: a limit whose cost stays the same keeps its keys; of the others
the entries of other requests in the window stay, the request has one entry with the new cost and
the time of its admission if that cost is positive and the time in the window, and no entry
otherwise, and the total is the sum of the log. Two adjusts of the same limits at one time leave and
report what the second alone would have, from the first cost. -/
theorem adjust_replaces [DecidableEq κ] [DecidableEq ι] {cfg : Config κ} {tr : List (Event κ ι)}
    {s : Server κ ι} {identifier : ι} {acquiredAt : ℤ} (h : (system cfg).Run tr s) {old : κ → ℕ}
    (hcharged : ∀ l ∈ cfg.limits, ChargedAs identifier acquiredAt (old l.name) (s.store l.name)) :
    (∀ new : κ → ℕ,
      let after := (exec cfg (.adjust identifier acquiredAt (changes old new)) s.time s.store).2
      ∀ l ∈ cfg.limits,
        (new l.name = old l.name → after l.name = s.store l.name) ∧
        (new l.name ≠ old l.name →
          (∀ e : Scored (Member ι), e.member.identifier ≠ identifier →
            (e ∈ (after l.name).log.value.entries ↔
              e ∈ (s.store l.name).log.value.entries ∧ s.time - l.windowMs < e.score)) ∧
          (after l.name).log.value.entries.filter (fun e => e.member.identifier = identifier) =
            (if 0 < new l.name ∧ s.time - l.windowMs < acquiredAt
              then [⟨⟨new l.name, identifier⟩, acquiredAt⟩] else []) ∧
          Accounted (after l.name))) ∧
    ∀ (p : κ → Bool) (c₁ c₂ : κ → ℕ),
      let first := exec cfg (.adjust identifier acquiredAt (changing p old c₁)) s.time s.store
      let second := exec cfg (.adjust identifier acquiredAt (changing p c₁ c₂)) s.time first.2
      let direct := exec cfg (.adjust identifier acquiredAt (changing p old c₂)) s.time s.store
      second.1.figures = direct.1.figures ∧
        ∀ name, (second.2 name).log.value = (direct.2 name).log.value ∧
          (second.2 name).total.get = (direct.2 name).total.get := by
  have hconsistent := consistent_of_run h
  refine ⟨fun new => ?_, fun p c₁ c₂ => ?_⟩
  · intro after l hl
    refine ⟨fun hsame => ?_, fun hne => ?_⟩
    · apply exec_changing_of_not
      intro l' _ _
      simpa using hsame
    · have hafter : after l.name = _ := exec_changing hl (by simpa using hne)
      rw [hafter]
      refine ⟨fun e hid => ?_, filter_entries_eq (fun e hid => ?_) rfl, ?_⟩
      · rw [mem_log_adjusted (by exact l.window_pos) (hcharged l hl), if_neg hid]
      · rw [mem_log_adjusted (by exact l.window_pos) (hcharged l hl), if_pos hid, and_assoc]
      · exact (adjustLimit_accounted (by exact l.window_pos) (hconsistent l.name)).1
  · intro first second direct
    have hsame : ∀ name, (second.2 name).log.value = (direct.2 name).log.value ∧
        (second.2 name).total.get = (direct.2 name).total.get := changing_twice hconsistent hcharged
    have hstep : Step cfg s _ ⟨s.time, first.2⟩ :=
      .call s (.adjust identifier acquiredAt (changing p old c₁))
    have honce : ∀ name, Consistent (first.2 name) := consistent_step hconsistent hstep
    have hsecond : second.1.figures = _ := figures_exec honce _
    have hdirect : direct.1.figures = _ := figures_exec hconsistent _
    refine ⟨?_, hsame⟩
    rw [hsecond, hdirect, touched_changing, touched_changing]
    apply List.map_congr_left
    intro l _
    rw [(hsame l.name).1]

/-- Four units of every limit. -/
def fourUnits : ℕ → ℕ := fun _ => 4

/-- Four units admitted at 1000 ms are refunded and charged again as twelve, which is over the
limit. -/
theorem adjust_replaces_refund : ∃ store : ℕ → LimitKeys ℕ,
    let first := exec tenPerSecond
      (.adjust 7 1000 (changing (fun _ => true) fourUnits fun _ => 0)) 1200 store
    let second := exec tenPerSecond
      (.adjust 7 1000 (changing (fun _ => true) (fun _ => 0) fun _ => 12)) 1200 first.2
    let direct := exec tenPerSecond
      (.adjust 7 1000 (changing (fun _ => true) fourUnits fun _ => 12)) 1200 store
    direct.1.figures = [12] ∧ second.1.figures = direct.1.figures := by
  have h₀ : (system tenPerSecond).Run [] (⟨1000, fun _ => LimitKeys.initial⟩ : Server ℕ ℕ) :=
    .start rfl
  have h₁ := h₀.step (.call _ (.acquire 7 fun _ => 4))
  have h₂ := h₁.step (.wait _ 1200 (by decide))
  have hcharged : ∀ l ∈ tenPerSecond.limits, ChargedAs 7 1000 (fourUnits l.name)
      ((exec tenPerSecond (.acquire 7 fun _ => 4) 1000 fun _ => LimitKeys.initial).2 l.name) := by
    unfold ChargedAs
    decide
  obtain ⟨-, htwice⟩ := adjust_replaces h₂ hcharged
  exact ⟨_, by decide, (htwice (fun _ => true) (fun _ => 0) fun _ => 12).1⟩

end RedisSemaphore.RateLimiter
