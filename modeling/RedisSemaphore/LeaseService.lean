import RedisSemaphore.Transition
import Mathlib.Data.Set.Card

/-!
# A lease service

What a counting semaphore with leases is for, without a server. Clients are granted leases until an
expiry, and a lease counts until then: nothing has to be cleaned up. Every grant comes with the next
fencing token.

Two answers are left open, as a client cannot rely on them. A release of a lease that has run out
may be told that there was still something to release, and a renewal at the very moment of the
expiry may come in time if there is room. `cap` is the widest limit a client has asked for.
-/

namespace LeaseService

open Transition

variable {ι : Type*}

/-- The clock, the latest lease of every client, the tokens handed out and the widest limit. -/
structure State (ι : Type*) where
  time : ℤ
  lease : ι → Option ℤ
  issued : ℕ
  cap : ℕ

namespace State

/-- Nobody has asked for anything. -/
def initial (time : ℤ) : State ι := ⟨time, fun _ => none, 0, 0⟩

/-- The client has a lease that has not run out. -/
def Live (s : State ι) (i : ι) : Prop := ∃ expiry, s.lease i = some expiry ∧ s.time < expiry

/-- The clients with such a lease. -/
def holders (s : State ι) : Set ι := {i | s.Live i}

/-- How many slots are taken. -/
noncomputable def occupancy (s : State ι) : ℕ∞ := s.holders.encard

/-- Note a limit that is asked for. -/
def ask (s : State ι) (limit : ℕ) : State ι := { s with cap := max s.cap limit }

/-- Hand out the next token. -/
def issue (s : State ι) : State ι := { s with issued := s.issued + 1 }

/-- Let time pass. -/
def advance (s : State ι) (time : ℤ) : State ι := { s with time := time }

variable [DecidableEq ι]

/-- Give or renew a lease. -/
def grant (s : State ι) (i : ι) (expiry : ℤ) : State ι :=
  { s with lease := Function.update s.lease i (some expiry) }

/-- End a lease. -/
def drop (s : State ι) (i : ι) : State ι := { s with lease := Function.update s.lease i none }

end State

/-- What a client sees: what it asked for and the answer. An acquire is answered with a token and an
expiry, or refused; both answers tell how many slots are taken. -/
inductive Event (ι : Type*)
  | acquire (i : ι) (limit timeout : ℕ) (answer : Option (ℕ × ℤ)) (used : ℕ)
  | release (i : ι) (answer : Bool)
  | renew (i : ι) (timeout : ℕ) (answer : Option ℤ)
  | inspect (i : Option ι) (used : ℕ) (own : Option ℤ)
  | wait (time : ℤ)

variable [DecidableEq ι]

/-- One step of the service. -/
inductive Step : State ι → Event ι → State ι → Prop
  | granted (s : State ι) (i : ι) (limit timeout used : ℕ) (h : s.Live i ∨ s.occupancy < limit)
      (hused : used = (insert i s.holders).encard) :
      Step s (.acquire i limit timeout (some (s.issued + 1, s.time + timeout)) used)
        ((s.ask limit).issue.grant i (s.time + timeout))
  | refused (s : State ι) (i : ι) (limit timeout used : ℕ) (h : ¬ s.Live i)
      (hfull : limit ≤ s.occupancy) (hused : used = s.occupancy) :
      Step s (.acquire i limit timeout none used) (s.ask limit)
  -- a late release may go either way, but nobody releases what it was never granted
  | released (s : State ι) (i : ι) (answer : Bool) (h : s.Live i → answer = true)
      (hleased : answer = true → s.lease i ≠ none) :
      Step s (.release i answer) (s.drop i)
  | renewed (s : State ι) (i : ι) (timeout : ℕ)
      (h : s.Live i ∨ s.lease i = some s.time ∧ s.occupancy < s.cap) :
      Step s (.renew i timeout (some (s.time + timeout))) (s.grant i (s.time + timeout))
  | lost (s : State ι) (i : ι) (timeout : ℕ) (h : ¬ s.Live i) :
      Step s (.renew i timeout none) (s.drop i)
  | inspected (s : State ι) (i : Option ι) (used : ℕ) (own : Option ℤ)
      (hused : used = s.occupancy)
      (hown : ∀ expiry, own = some expiry ↔
        ∃ j, i = some j ∧ s.lease j = some expiry ∧ s.time < expiry) :
      Step s (.inspect i used own) s
  | waited (s : State ι) (time : ℤ) (h : s.time ≤ time) : Step s (.wait time) (s.advance time)

/-- The runs of the service. -/
def service : System (State ι) (Event ι) where
  start s := ∃ time, s = State.initial time
  step := Step

/-! ## Holders -/

section Holders

variable {s : State ι} {i j : ι} {expiry : ℤ}

omit [DecidableEq ι] in
/-- Nobody holds a slot at first. -/
theorem holders_initial (time : ℤ) : (State.initial time : State ι).holders = ∅ := by
  ext i
  simp [State.holders, State.Live, State.initial]

omit [DecidableEq ι] in
/-- Asking takes no slot. -/
@[simp] theorem holders_ask (limit : ℕ) : (s.ask limit).holders = s.holders := rfl

omit [DecidableEq ι] in
/-- A token is no slot. -/
@[simp] theorem holders_issue : s.issue.holders = s.holders := rfl

/-- A grant makes at most its client a holder. -/
theorem holders_grant_subset : (s.grant i expiry).holders ⊆ insert i s.holders := by
  intro j hj
  obtain ⟨e, he, hlive⟩ := hj
  by_cases hij : j = i
  · exact Or.inl hij
  · refine Or.inr ⟨e, ?_, hlive⟩
    simpa only [State.grant, Function.update_of_ne hij] using he

/-- Dropping a lease adds no holder. -/
theorem holders_drop_subset : (s.drop i).holders ⊆ s.holders := by
  intro j hj
  obtain ⟨e, he, hlive⟩ := hj
  by_cases hij : j = i
  · subst hij
    simp [State.drop] at he
  · refine ⟨e, ?_, hlive⟩
    simpa only [State.drop, Function.update_of_ne hij] using he

omit [DecidableEq ι] in
/-- Leases run out as time passes. -/
theorem holders_advance_subset {time : ℤ} (h : s.time ≤ time) :
    (s.advance time).holders ⊆ s.holders := by
  rintro j ⟨e, he, hlive⟩
  exact ⟨e, he, h.trans_lt hlive⟩

omit [DecidableEq ι] in
/-- A client that is a holder, or finds room, takes no slot beyond the bound. -/
theorem encard_insert_le {n : ℕ} (hbound : s.occupancy ≤ n)
    (h : s.Live i ∨ s.occupancy < n) : (insert i s.holders).encard ≤ n := by
  rcases h with hlive | hroom
  · have hmem : i ∈ s.holders := hlive
    rw [Set.insert_eq_of_mem hmem]
    exact hbound
  · calc (insert i s.holders).encard ≤ s.holders.encard + 1 := Set.encard_insert_le _ _
      _ ≤ n := Order.add_one_le_of_lt hroom

end Holders

/-! ## Safety -/

/-- **One step** keeps the holders below the widest limit. -/
theorem occupancy_le_cap_step {s t : State ι} {e : Event ι} (h : s.occupancy ≤ s.cap)
    (hs : Step s e t) : t.occupancy ≤ t.cap := by
  cases hs with
  | granted i limit timeout used hwhy =>
    have hbound : s.occupancy ≤ (max s.cap limit : ℕ) :=
      h.trans (by exact_mod_cast le_max_left _ _)
    have hroom : s.Live i ∨ s.occupancy < (max s.cap limit : ℕ) :=
      hwhy.imp_right fun hlt => hlt.trans_le (by exact_mod_cast le_max_right _ _)
    refine (Set.encard_le_encard holders_grant_subset).trans ?_
    rw [holders_issue, holders_ask]
    exact encard_insert_le hbound hroom
  | refused i limit timeout used => exact h.trans (by exact_mod_cast le_max_left _ _)
  | released i answer => exact (Set.encard_le_encard holders_drop_subset).trans h
  | renewed i timeout hwhy =>
    exact (Set.encard_le_encard holders_grant_subset).trans
      (encard_insert_le h (hwhy.imp_right fun hroom => hroom.2))
  | lost i timeout => exact (Set.encard_le_encard holders_drop_subset).trans h
  | inspected => exact h
  | waited time hle => exact (Set.encard_le_encard (holders_advance_subset hle)).trans h

/-- At no time are there more holders than the widest limit a client has asked for. -/
theorem occupancy_le_cap {tr : List (Event ι)} {s : State ι} (h : service.Run tr s) :
    s.occupancy ≤ s.cap := by
  refine System.Run.invariant (I := fun _ s => s.occupancy ≤ s.cap) ?_
    (fun tr s e t _ ih hs => occupancy_le_cap_step ih hs) h
  rintro s ⟨time, rfl⟩
  rw [State.occupancy, holders_initial, Set.encard_empty]
  exact bot_le

/-! ## What a client has been told -/

/-- By what it has been told, the client may still have a lease: it was granted one, and has neither
released it nor been told that it is lost. -/
def Told (i : ι) : List (Event ι) → Prop
  | [] => False
  | .acquire j _ _ (some _) _ :: tr => j = i ∨ Told i tr
  | .release j _ :: tr => j ≠ i ∧ Told i tr
  | .renew j _ none :: tr => j ≠ i ∧ Told i tr
  | _ :: tr => Told i tr

/-- The service forgets a lease exactly when it says so. -/
theorem told_iff {tr : List (Event ι)} {s : State ι} (h : service.Run tr s) (i : ι) :
    s.lease i ≠ none ↔ Told i tr := by
  refine System.Run.invariant (I := fun tr s => s.lease i ≠ none ↔ Told i tr) ?_ ?_ h
  · rintro s ⟨time, rfl⟩
    simp [State.initial, Told]
  · intro tr s e t _ ih hs
    cases hs with
    | granted j limit timeout used =>
      by_cases hij : i = j
      · subst hij
        simp [State.grant, Told]
      · simpa [State.grant, State.issue, State.ask, Told, Function.update_of_ne hij, Ne.symm hij]
          using ih
    | refused j limit timeout used => exact ih
    | released j answer =>
      by_cases hij : i = j
      · subst hij
        simp [State.drop, Told]
      · simpa [State.drop, Told, Function.update_of_ne hij, Ne.symm hij] using ih
    | renewed j timeout hwhy =>
      by_cases hij : i = j
      · subst hij
        have hleased : s.lease i ≠ none := by
          rcases hwhy with ⟨expiry, hexpiry, -⟩ | ⟨hexpiry, -⟩ <;> simp [hexpiry]
        simpa [State.grant, Told] using ih.mp hleased
      · simpa [State.grant, Told, Function.update_of_ne hij] using ih
    | lost j timeout =>
      by_cases hij : i = j
      · subst hij
        simp [State.drop, Told]
      · simpa [State.drop, Told, Function.update_of_ne hij, Ne.symm hij] using ih
    | inspected => exact ih
    | waited time hle => exact ih

/-- **What is over stays over.** A renewal succeeds only for a client that has been granted a lease
since it last released one or was told that it is lost. -/
theorem told_of_renewed {tr : List (Event ι)} {s : State ι} {i : ι} {timeout : ℕ} {expiry : ℤ}
    (h : service.Run (.renew i timeout (some expiry) :: tr) s) : Told i tr := by
  obtain ⟨s₀, hrun, hstep⟩ := h.of_cons
  rw [← told_iff hrun i]
  cases hstep with
  | renewed _ _ hwhy =>
    rcases hwhy with ⟨expiry, hexpiry, -⟩ | ⟨hexpiry, -⟩ <;> simp [hexpiry]

end LeaseService
