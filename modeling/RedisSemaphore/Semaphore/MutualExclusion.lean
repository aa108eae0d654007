import RedisSemaphore.Semaphore.Leases

/-!
# Mutual exclusion

The simulation of `Leases` bounds the live holders: each of them owns an element of the owners set,
and the set never outgrows the limit.
-/

namespace RedisSemaphore.Semaphore

open Redis Transition

variable {ι : Type*} [LinearOrder ι]

/-- Live holders own distinct elements of the owners set. -/
theorem Inv.card_le {tr : List (Event ι)} {s : Server ι} (h : Inv tr s) {S : Finset ι}
    (hS : ∀ i ∈ S, LiveHolder tr s.time i) : S.card ≤ s.keys.owners.value.zcard := by
  refine SortedSet.card_le_zcard S fun i hi => ?_
  obtain ⟨expiry, hgrant, hlive⟩ := hS i hi
  exact ⟨expiry, h.held i expiry hgrant hlive⟩

/-- **Mutual exclusion.** At every moment of every run, a live holder is a member of the owners set
with exactly the score of its latest grant; and if all acquires pass the limit `n`, no more than `n`
identifiers are live holders. -/
theorem live_holders_le_limit {tr : List (Event ι)} {s : Server ι} (h : system.Run tr s) :
    (∀ i expiry, latestGrant tr i = some expiry → s.time < expiry →
      s.keys.owners.value.zscore i = some expiry) ∧
    ∀ n, SameLimit n tr → ∀ S : Finset ι, (∀ i ∈ S, LiveHolder tr s.time i) → S.card ≤ n := by
  have hinv := inv_of_run h
  refine ⟨hinv.held, fun n hn S hS => ?_⟩
  exact (hinv.card_le hS).trans (hinv.bounded n hn)

/-- Two callers and one slot: the second is refused while the first holds it and renews, and gets
it once the renewed lease has run out. -/
def contested : List (Event ℕ) :=
  [.call 20 (.acquire 8 1 10) (.acquire ⟨true, some 2, some 30, 1⟩), .wait 20,
    .call 5 (.refresh 7 10) (.int 15), .wait 5,
    .call 2 (.acquire 8 1 10) (.acquire ⟨false, none, none, 1⟩), .wait 2,
    .call 1 (.acquire 7 1 10) (.acquire ⟨true, some 1, some 11, 1⟩)]

/-- At the end of the contest the second caller is the only holder. -/
theorem live_holders_le_limit_contested : ∃ s : Server ℕ, system.Run contested s ∧
    s.keys.owners.value.zscore 8 = some 30 ∧ ∀ j, LiveHolder contested s.time j → j = 8 := by
  have h : system.Run [] (⟨1, Keys.initial⟩ : Server ℕ) := .start ⟨by decide, rfl⟩
  have h := h.step (.call _ (.acquire 7 1 10))
  have h := h.step (.wait _ 2 (by decide))
  have h := h.step (.call _ (.acquire 8 1 10))
  have h := h.step (.wait _ 5 (by decide))
  have h := h.step (.call _ (.refresh 7 10))
  have h := h.step (.wait _ 20 (by decide))
  have h := h.step (.call _ (.acquire 8 1 10))
  have hrun : ∃ keys, system.Run contested ⟨20, keys⟩ := ⟨_, h⟩
  obtain ⟨keys, hrun⟩ := hrun
  obtain ⟨hheld, hlimit⟩ := live_holders_le_limit hrun
  have hsame : SameLimit 1 contested := by
    refine ⟨?_, ?_, ?_, ?_, ?_, ?_, ?_, trivial⟩ <;> rintro t i limit timeout r ⟨⟩ <;> rfl
  have hgrant : latestGrant contested 8 = some 30 := by decide
  refine ⟨_, hrun, hheld 8 30 hgrant (show (20 : ℤ) < 30 by decide), fun j hj => ?_⟩
  by_contra hne
  have hcard := hlimit 1 hsame {j, 8} ?_
  · rw [Finset.card_pair hne] at hcard
    omega
  · intro i hi
    rw [Finset.mem_insert, Finset.mem_singleton] at hi
    rcases hi with rfl | rfl
    · exact hj
    · exact ⟨30, hgrant, show (20 : ℤ) < 30 by decide⟩

end RedisSemaphore.Semaphore
