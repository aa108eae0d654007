import RedisSemaphore.SlidingWindow
import RedisSemaphore.Transition
import Mathlib.Order.Bounds.Basic
import Mathlib.Algebra.Order.Group.Int
import Mathlib.Algebra.Order.Group.Nat
import Mathlib.Data.List.Nodup

/-!
# A sliding-window admission service

What a rate limiter is for, without a server. The service remembers every request it admitted, with
the moment and the cost, forever. A request is admitted if, with it, no window that ends now holds
more than the limit allows; a refusal names the first moment at which the request would fit. An
admitted request can be given other costs afterwards, which may take a window over its limit.

The costs of a request are one number for each limit, so that one request can be charged to several
windows at once or to none.
-/

namespace WindowService

open Transition SlidingWindow

variable {κ ι : Type*}

/-- At most `bound` units in every window of the given width. -/
structure Limit (κ : Type*) where
  name : κ
  bound : ℕ
  width : ℤ

/-- A request that was admitted. -/
structure Admission (κ ι : Type*) where
  identifier : ι
  admittedAt : ℤ
  cost : κ → ℕ

/-- The clock and all admissions, newest first. -/
structure State (κ ι : Type*) where
  time : ℤ
  log : List (Admission κ ι)

/-! ## Operations -/

/-- The units a limit finds in its window at a moment. -/
def usage (log : List (Admission κ ι)) (l : Limit κ) (time : ℤ) : ℤ :=
  windowSum Admission.admittedAt (fun a => (a.cost l.name : ℤ)) l.width time log

/-- The request fits every limit it is charged to. -/
def Fits (limits : List (Limit κ)) (log : List (Admission κ ι)) (cost : κ → ℕ) (time : ℤ) : Prop :=
  ∀ l ∈ limits, 0 < cost l.name → usage log l time + cost l.name ≤ l.bound

/-- The admission is still in every window the request is charged to, under the same cost. -/
def Admission.Covers (a : Admission κ ι) (limits : List (Limit κ)) (cost : κ → ℕ) (time : ℤ) :
    Prop :=
  ∀ l ∈ limits, 0 < cost l.name → a.cost l.name = cost l.name ∧ time - l.width < a.admittedAt

/-- The new costs of a request: those named in `change`, which maps a limit to the old and the new
cost. -/
def recost (change : κ → Option (ℕ × ℕ)) (cost : κ → ℕ) : κ → ℕ :=
  fun k => ((change k).map Prod.snd).getD (cost k)

variable [DecidableEq ι]

/-- Give one request other costs. -/
def Admission.adjust (i : ι) (change : κ → Option (ℕ × ℕ)) (a : Admission κ ι) : Admission κ ι :=
  if a.identifier = i then { a with cost := recost change a.cost } else a

namespace State

/-- Remember an admission. -/
def admitted (s : State κ ι) (i : ι) (cost : κ → ℕ) : State κ ι :=
  { s with log := ⟨i, s.time, cost⟩ :: s.log }

/-- Change what a request costs. -/
def adjust (s : State κ ι) (i : ι) (change : κ → Option (ℕ × ℕ)) : State κ ι :=
  { s with log := s.log.map (Admission.adjust i change) }

/-- Let time pass. -/
def advance (s : State κ ι) (time : ℤ) : State κ ι := { s with time := time }

end State

/-- What a client sees. An acquire is answered with `none` if the request is admitted, else with the
time to wait; the figures are the units in each window after the answer. -/
inductive Event (κ ι : Type*)
  | acquire (time : ℤ) (i : ι) (cost : κ → ℕ) (answer : Option ℤ) (used : List ℤ)
  | adjust (time : ℤ) (i : ι) (admittedAt : ℤ) (change : κ → Option (ℕ × ℕ)) (used : List ℤ)
  | inspect (time : ℤ) (used : List ℤ)
  | wait (time : ℤ)

/-- The limits an adjust names. -/
def changed (limits : List (Limit κ)) (change : κ → Option (ℕ × ℕ)) : List (Limit κ) :=
  limits.filter fun l => (change l.name).isSome

/-- The figures of some limits. -/
def State.figures (s : State κ ι) (limits : List (Limit κ)) : List ℤ :=
  limits.map fun l => usage s.log l s.time

/-- One step of the service. -/
inductive Step (limits : List (Limit κ)) : State κ ι → Event κ ι → State κ ι → Prop
  | admitted (s : State κ ι) (i : ι) (cost : κ → ℕ) (hfresh : ∀ a ∈ s.log, a.identifier ≠ i)
      (hfits : Fits limits s.log cost s.time) :
      Step limits s (.acquire s.time i cost none ((s.admitted i cost).figures limits))
        (s.admitted i cost)
  -- a request that is sent again is not charged again
  | again (s : State κ ι) (i : ι) (cost : κ → ℕ) (a : Admission κ ι) (ha : a ∈ s.log)
      (hi : a.identifier = i) (hcovers : a.Covers limits cost s.time) :
      Step limits s (.acquire s.time i cost none (s.figures limits)) s
  | denied (s : State κ ι) (i : ι) (cost : κ → ℕ) (wait : ℤ)
      (hfits : ¬ Fits limits s.log cost s.time)
      (hwait : IsLeast {d | 0 < d ∧ Fits limits s.log cost (s.time + d)} wait) :
      Step limits s (.acquire s.time i cost (some wait) (s.figures limits)) s
  | adjusted (s : State κ ι) (i : ι) (admittedAt : ℤ) (change : κ → Option (ℕ × ℕ)) :
      Step limits s (.adjust s.time i admittedAt change
        ((s.adjust i change).figures (changed limits change))) (s.adjust i change)
  | inspected (s : State κ ι) : Step limits s (.inspect s.time (s.figures limits)) s
  | waited (s : State κ ι) (time : ℤ) (h : s.time ≤ time) :
      Step limits s (.wait time) (s.advance time)

/-- The runs of the service. -/
def service (limits : List (Limit κ)) : System (State κ ι) (Event κ ι) where
  start s := s.log = []
  step := Step limits

/-! ## The log of a trace -/

/-- The admissions a client has seen. -/
def admissions : List (Event κ ι) → List (Admission κ ι)
  | [] => []
  | .acquire time i cost none _ :: tr =>
    if (admissions tr).any fun a => a.identifier = i then admissions tr
    else ⟨i, time, cost⟩ :: admissions tr
  | .adjust _ i _ change _ :: tr => (admissions tr).map (Admission.adjust i change)
  | .acquire _ _ _ (some _) _ :: tr => admissions tr
  | .inspect _ _ :: tr => admissions tr
  | .wait _ :: tr => admissions tr

/-- What clients keep to. No request is larger than a limit; an identifier is used for one request,
which may be sent again while it is in all of its windows; an adjust names an admitted request by
its moment, and by the costs it is recorded with unless it is sent again. -/
def Proper (limits : List (Limit κ)) (tr : List (Event κ ι)) : Event κ ι → Prop
  | .acquire time i cost _ _ => (∀ l ∈ limits, cost l.name ≤ l.bound) ∧
      ((∀ a ∈ admissions tr, a.identifier ≠ i) ∨
        ∃ a ∈ admissions tr, a.identifier = i ∧ a.Covers limits cost time)
  | .adjust time i admittedAt change _ => ∃ a ∈ admissions tr, a.identifier = i ∧
      a.admittedAt = admittedAt ∧ ∀ l ∈ limits, ∀ oldCost newCost,
        change l.name = some (oldCost, newCost) → time - l.width < admittedAt →
          oldCost = a.cost l.name ∨ newCost = a.cost l.name
  | _ => True

section Log

variable {limits : List (Limit κ)} {i : ι} {change : κ → Option (ℕ × ℕ)} {a : Admission κ ι}

/-- An adjustment keeps whose admission it is. -/
@[simp] theorem identifier_adjust : (a.adjust i change).identifier = a.identifier := by
  unfold Admission.adjust
  split <;> rfl

/-- It keeps when that was. -/
@[simp] theorem admittedAt_adjust : (a.adjust i change).admittedAt = a.admittedAt := by
  unfold Admission.adjust
  split <;> rfl

/-- Others keep their costs. -/
theorem adjust_of_ne (h : a.identifier ≠ i) : a.adjust i change = a := if_neg h

/-- Its own admission costs what the change says. -/
theorem adjust_of_eq (h : a.identifier = i) :
    a.adjust i change = { a with cost := recost change a.cost } := if_pos h

/-- The service remembers what the client has seen. -/
theorem log_of_run {tr : List (Event κ ι)} {s : State κ ι} (h : (service limits).Run tr s) :
    s.log = admissions tr := by
  refine System.Run.invariant (M := service limits) (I := fun tr s => s.log = admissions tr)
    (fun s hs => hs) ?_ h
  intro tr s e s' _ ih hs
  cases hs with
  | admitted i cost hfresh hfits =>
    have hnew : ((admissions tr).any fun a => a.identifier = i) = false := by
      rw [List.any_eq_false]
      intro a ha
      simpa using hfresh a (ih ▸ ha)
    simp only [State.admitted, admissions, hnew, Bool.false_eq_true, if_false, ih]
  | again i cost a ha hi hcovers =>
    have hold : ((admissions tr).any fun a => a.identifier = i) = true :=
      List.any_eq_true.mpr ⟨a, ih ▸ ha, by simpa using hi⟩
    simp only [admissions, hold, if_true, ih]
  | denied i cost wait hfits hwait => exact ih
  | adjusted i admittedAt change => exact congrArg (List.map _) ih
  | inspected => exact ih
  | waited time hle => exact ih

/-- Nothing was admitted in the future, and every identifier once. -/
theorem log_wellFormed {tr : List (Event κ ι)} {s : State κ ι} (h : (service limits).Run tr s) :
    (∀ a ∈ s.log, a.admittedAt ≤ s.time) ∧ (s.log.map Admission.identifier).Nodup := by
  refine System.Run.invariant (M := service limits) (I := fun _ s =>
    (∀ a ∈ s.log, a.admittedAt ≤ s.time) ∧ (s.log.map Admission.identifier).Nodup) ?_ ?_ h
  · intro s hs
    rw [show s.log = [] from hs]
    exact ⟨fun a ha => absurd ha List.not_mem_nil, List.nodup_nil⟩
  · rintro tr s e s' - ⟨hpast, hnodup⟩ hs
    cases hs with
    | admitted i cost hfresh hfits =>
      refine ⟨List.forall_mem_cons.mpr ⟨le_rfl, hpast⟩, List.nodup_cons.mpr ⟨?_, hnodup⟩⟩
      intro hmem
      obtain ⟨a, ha, heq⟩ := List.mem_map.mp hmem
      exact hfresh a ha heq
    | again i cost a ha hi hcovers => exact ⟨hpast, hnodup⟩
    | denied i cost wait hfits hwait => exact ⟨hpast, hnodup⟩
    | adjusted i admittedAt change =>
      refine ⟨fun a ha => ?_, ?_⟩
      · obtain ⟨a', ha', rfl⟩ := List.mem_map.mp ha
        rw [admittedAt_adjust]
        exact hpast a' ha'
      · have hsame : Admission.identifier ∘ Admission.adjust i change = Admission.identifier :=
          funext fun a => identifier_adjust
        simp only [State.adjust, List.map_map, hsame]
        exact hnodup
    | inspected => exact ⟨hpast, hnodup⟩
    | waited time hle => exact ⟨fun a ha => (hpast a ha).trans hle, hnodup⟩

end Log

/-! ## Debt -/

/-- What adjusts have raised the cost of a request by, lowering ones not counted. -/
def raised : List (Event κ ι) → ι → κ → ℕ
  | .adjust _ j _ change _ :: tr, i, k =>
    raised tr i k + match (admissions tr).find? fun a => a.identifier = i with
      | some a => (a.adjust j change).cost k - a.cost k
      | none => 0
  | .acquire _ _ _ _ _ :: tr, i, k => raised tr i k
  | .inspect _ _ :: tr, i, k => raised tr i k
  | .wait _ :: tr, i, k => raised tr i k
  | [], _, _ => 0

/-- The units raised of the requests in a window: every raise since their admission, with no
lowering counted back. -/
def debt (tr : List (Event κ ι)) (l : Limit κ) (time : ℤ) : ℤ :=
  windowSum Admission.admittedAt (fun a => (raised tr a.identifier l.name : ℤ)) l.width time
    (admissions tr)

/-- The units a window holds beyond those. -/
def unraised (tr : List (Event κ ι)) (log : List (Admission κ ι)) (l : Limit κ) (time : ℤ) : ℤ :=
  windowSum Admission.admittedAt (fun a => (a.cost l.name : ℤ) - raised tr a.identifier l.name)
    l.width time log

section Debt

variable {limits : List (Limit κ)} {l : Limit κ} {tr : List (Event κ ι)}
  {log : List (Admission κ ι)} {time p : ℤ}

variable (tr l time) in
/-- Usage is what was admitted and not raised, and what was raised. -/
theorem unraised_add_debt :
    unraised tr (admissions tr) l time + debt tr l time = usage (admissions tr) l time := by
  unfold unraised debt usage windowSum
  rw [← List.sum_map_add]
  simp only [sub_add_cancel]

variable (tr l) in
/-- Raises only add. -/
theorem unraised_le_usage : unraised tr log l time ≤ usage log l time :=
  windowSum_le_windowSum (fun a _ => by omega) time

omit [DecidableEq ι] in
/-- A window that ends later holds no more of what was admitted so far. -/
theorem usage_anti (hpast : ∀ a ∈ log, a.admittedAt ≤ time) (hp : time ≤ p) :
    usage log l p ≤ usage log l time := by
  refine sum_filter_le_sum_filter (fun a => Int.natCast_nonneg _) fun a ha hwin => ?_
  simp only [decide_eq_true_eq] at hwin ⊢
  have := hpast a ha
  omega

/-- A new admission was checked at the window that ends with it. -/
theorem unraised_admit {i : ι} {cost : κ → ℕ} (hl : l ∈ limits)
    (hpast : ∀ a ∈ log, a.admittedAt ≤ time) (hfits : Fits limits log cost time)
    (hold : unraised tr log l p ≤ l.bound) (hp : time ≤ p) :
    unraised tr (⟨i, time, cost⟩ :: log) l p ≤ l.bound := by
  have hbelow := (unraised_le_usage l tr).trans (usage_anti hpast hp)
  unfold unraised windowSum at hold hbelow ⊢
  by_cases hwin : p - l.width < time ∧ time ≤ p
  · rw [List.filter_cons_of_pos (by simpa using hwin), List.map_cons, List.sum_cons]
    simp only
    by_cases hpos : 0 < cost l.name
    · have := hfits l hl hpos
      omega
    · omega
  · rw [List.filter_cons_of_neg (by simpa using hwin)]
    exact hold

/-- An adjust raises no more than is noted. -/
theorem unraised_adjust {t admittedAt : ℤ} {i : ι} {change : κ → Option (ℕ × ℕ)} {used : List ℤ}
    (hdistinct : ((admissions tr).map Admission.identifier).Nodup) :
    unraised (.adjust t i admittedAt change used :: tr)
        ((admissions tr).map (Admission.adjust i change)) l time ≤
      unraised tr (admissions tr) l time := by
  unfold unraised
  rw [windowSum_map fun a => admittedAt_adjust]
  refine windowSum_le_windowSum (fun a ha => ?_) time
  have hfind : ((admissions tr).find? fun b => b.identifier = a.identifier) = some a := by
    have hsome : ((admissions tr).find? fun b => b.identifier = a.identifier).isSome :=
      List.find?_isSome.mpr ⟨a, ha, decide_eq_true rfl⟩
    obtain ⟨b, hb⟩ := Option.isSome_iff_exists.mp hsome
    have hsame := List.find?_some hb
    simp only [decide_eq_true_eq] at hsame
    rw [hb, List.inj_on_of_nodup_map hdistinct (List.mem_of_find?_eq_some hb) ha hsame]
  simp only [raised, identifier_adjust, hfind]
  have hraise : (a.adjust i change).cost l.name ≤
      a.cost l.name + ((a.adjust i change).cost l.name - a.cost l.name) := by omega
  omega

/-- **Debt.** Right now a window holds at most what the limit allows and what its requests were
raised by after they were admitted. -/
theorem usage_le_bound_add_debt {s : State κ ι} (h : (service limits).Run tr s) (hl : l ∈ limits) :
    usage s.log l s.time ≤ l.bound + debt tr l s.time := by
  have hinv : ∀ p, s.time ≤ p → unraised tr (admissions tr) l p ≤ l.bound := by
    refine System.Run.invariant (M := service limits)
      (I := fun tr s => ∀ p, s.time ≤ p → unraised tr (admissions tr) l p ≤ l.bound) ?_ ?_ h
    · exact fun s hs p hp => Int.natCast_nonneg l.bound
    · intro tr s e s' hrun ih hs p hp
      have hlog := log_of_run (hrun.step hs)
      obtain ⟨hpast, hdistinct⟩ := log_wellFormed hrun
      rw [log_of_run hrun] at hpast hdistinct
      rw [← hlog]
      cases hs with
      | admitted i cost hfresh hfits =>
        rw [log_of_run hrun] at hfits
        simp only [State.admitted, log_of_run hrun]
        exact unraised_admit hl hpast hfits (ih p hp) hp
      | again i cost a ha hi hcovers => rw [log_of_run hrun]; exact ih p hp
      | denied i cost wait hfits hwait => rw [log_of_run hrun]; exact ih p hp
      | adjusted i admittedAt change =>
        simp only [State.adjust, log_of_run hrun]
        exact (unraised_adjust hdistinct).trans (ih p hp)
      | inspected => rw [log_of_run hrun]; exact ih p hp
      | waited time hle =>
        simp only [State.advance, log_of_run hrun]
        exact ih p (hle.trans hp)
  have hnow := hinv s.time le_rfl
  have hsum := unraised_add_debt l tr s.time
  rw [log_of_run h]
  omega

end Debt

end WindowService
