import Mathlib.Data.List.Sort
import Mathlib.Algebra.BigOperators.Group.List.Basic
import Mathlib.Data.Finset.Card
import Mathlib.Tactic.Linarith

/-!
# Redis sorted sets

A sorted set maps members to scores and keeps its elements ordered by score, and by member among
equal scores. Order and uniqueness of members are fields of the structure, so every value built by
the commands below is a sorted set Redis could hold.

Scores are integers here: Redis stores them as doubles, which represent every integer below `2 ^
53`.
-/

namespace Redis

/-- One element of a sorted set. -/
structure Scored (α : Type*) where
  member : α
  score : ℤ
  deriving DecidableEq, Repr

namespace Scored

variable {α : Type*} [LinearOrder α]

/-- Redis' order: by score, then by member. -/
instance : LE (Scored α) where
  le a b := a.score < b.score ∨ a.score = b.score ∧ a.member ≤ b.member

/-- The order of a sorted set, written out. -/
theorem le_def (a b : Scored α) :
    a ≤ b ↔ a.score < b.score ∨ a.score = b.score ∧ a.member ≤ b.member :=
  Iff.rfl

instance : DecidableRel (α := Scored α) (· ≤ ·) :=
  fun a b => decidable_of_iff' _ (le_def a b)

instance : Std.Total (α := Scored α) (· ≤ ·) where
  total a b := by
    simp only [le_def]
    rcases lt_trichotomy a.score b.score with h | h | h
    · exact Or.inl (Or.inl h)
    · rcases le_total a.member b.member with hm | hm
      · exact Or.inl (Or.inr ⟨h, hm⟩)
      · exact Or.inr (Or.inr ⟨h.symm, hm⟩)
    · exact Or.inr (Or.inl h)

instance : IsTrans (Scored α) (· ≤ ·) where
  trans a b c := by
    simp only [le_def]
    rintro (hab | ⟨hab, mab⟩) (hbc | ⟨hbc, mbc⟩)
    · exact Or.inl (hab.trans hbc)
    · exact Or.inl (hbc ▸ hab)
    · exact Or.inl (hab ▸ hbc)
    · exact Or.inr ⟨hab.trans hbc, mab.trans mbc⟩

/-- The order looks at the score first. -/
theorem score_le {a b : Scored α} (h : a ≤ b) : a.score ≤ b.score := by
  rcases (le_def a b).mp h with h | ⟨h, -⟩ <;> omega

end Scored

/-- A sorted set: ordered elements with distinct members. -/
structure SortedSet (α : Type*) [LinearOrder α] where
  entries : List (Scored α)
  sorted : entries.Pairwise (· ≤ ·)
  nodup : (entries.map Scored.member).Nodup

namespace SortedSet

variable {α : Type*} [LinearOrder α]

/-- The empty sorted set: the value of a missing key. -/
def empty : SortedSet α := ⟨[], List.Pairwise.nil, List.nodup_nil⟩

instance : EmptyCollection (SortedSet α) := ⟨empty⟩

/-- The empty set. -/
@[simp] theorem entries_empty : (∅ : SortedSet α).entries = [] := rfl

/-- A sorted set is its list of entries: order and uniqueness are proofs. -/
theorem ext_entries {z w : SortedSet α} (h : z.entries = w.entries) : z = w := by
  cases z; cases w; simp_all

/-! ## Commands -/

/-- `ZCARD`. -/
def zcard (z : SortedSet α) : ℕ := z.entries.length

/-- `ZSCORE`: the score of a member, if it is present. -/
def zscore (z : SortedSet α) (m : α) : Option ℤ :=
  (z.entries.find? (·.member = m)).map Scored.score

/-- Keep the elements that satisfy `p`. -/
def keep (z : SortedSet α) (p : Scored α → Bool) : SortedSet α where
  entries := z.entries.filter p
  sorted := z.sorted.filter p
  nodup := z.nodup.sublist (List.filter_sublist.map _)

/-- `ZREM` of one member. -/
def zrem (z : SortedSet α) (m : α) : SortedSet α :=
  z.keep (·.member ≠ m)

/-- `ZREMRANGEBYSCORE -inf max`. -/
def zremRangeByScore (z : SortedSet α) (max : ℤ) : SortedSet α :=
  z.keep (max < ·.score)

/-- `ZRANGEBYSCORE -inf max`. -/
def zrangeByScore (z : SortedSet α) (max : ℤ) : List (Scored α) :=
  z.entries.filter (·.score ≤ max)

/-- `ZRANGE start stop WITHSCORES` for non-negative indices. -/
def zrange (z : SortedSet α) (start stop : ℕ) : List (Scored α) :=
  (z.entries.drop start).take (stop + 1 - start)

/-- The element at index `-1`: `ZRANGE -1 -1`. -/
def last (z : SortedSet α) : Option (Scored α) :=
  z.entries.getLast?

/-- `ZADD score member`: insert, or move an existing member to its new score. -/
def zadd (z : SortedSet α) (score : ℤ) (m : α) : SortedSet α where
  entries := (z.zrem m).entries.orderedInsert (· ≤ ·) ⟨m, score⟩
  sorted := (z.zrem m).sorted.orderedInsert _ _
  nodup := by
    have hperm := (List.perm_orderedInsert (· ≤ ·) (⟨m, score⟩ : Scored α) (z.zrem m).entries).map
      Scored.member
    rw [hperm.nodup_iff, List.map_cons, List.nodup_cons]
    refine ⟨?_, (z.zrem m).nodup⟩
    simp [zrem, keep]

/-! ## What the commands do to the elements -/

section Elements

variable {z : SortedSet α} {m m' : α} {s : ℤ} {e : Scored α}

/-- What stays after a filter. -/
@[simp] theorem mem_keep {p : Scored α → Bool} :
    e ∈ (z.keep p).entries ↔ e ∈ z.entries ∧ p e = true := by
  simp [keep]

/-- What stays after `ZREM`. -/
@[simp] theorem mem_zrem : e ∈ (z.zrem m).entries ↔ e ∈ z.entries ∧ e.member ≠ m := by
  simp [zrem]

/-- What stays after `ZREMRANGEBYSCORE -inf max`. The bound itself goes. -/
@[simp] theorem mem_zremRangeByScore {max : ℤ} :
    e ∈ (z.zremRangeByScore max).entries ↔ e ∈ z.entries ∧ max < e.score := by
  simp [zremRangeByScore]

/-- What is there after `ZADD`: the new entry, and the others of other members. -/
@[simp] theorem mem_zadd :
    e ∈ (z.zadd s m).entries ↔ e = ⟨m, s⟩ ∨ e ∈ z.entries ∧ e.member ≠ m := by
  simp [zadd]

/-- A member has one score. -/
theorem eq_of_mem_of_member_eq {e₁ e₂ : Scored α} (h₁ : e₁ ∈ z.entries) (h₂ : e₂ ∈ z.entries)
    (h : e₁.member = e₂.member) : e₁ = e₂ :=
  List.inj_on_of_nodup_map z.nodup h₁ h₂ h

/-- `ZSCORE` answers `s` exactly when the element is there. -/
theorem zscore_eq_some : z.zscore m = some s ↔ ⟨m, s⟩ ∈ z.entries := by
  simp only [zscore, Option.map_eq_some_iff]
  constructor
  · rintro ⟨e, hfind, rfl⟩
    have hmem := List.mem_of_find?_eq_some hfind
    have hm : e.member = m := by simpa using List.find?_some hfind
    subst hm
    exact hmem
  · intro hmem
    obtain ⟨e, he⟩ : ∃ e, z.entries.find? (·.member = m) = some e := by
      rw [← Option.isSome_iff_exists, List.find?_isSome]
      exact ⟨_, hmem, by simp⟩
    refine ⟨e, he, ?_⟩
    have hm : e.member = m := by simpa using List.find?_some he
    rw [eq_of_mem_of_member_eq (List.mem_of_find?_eq_some he) hmem hm]

/-- `ZSCORE` answers nil exactly when no element has the member. -/
theorem zscore_eq_none : z.zscore m = none ↔ ∀ e ∈ z.entries, e.member ≠ m := by
  simp [zscore, List.find?_eq_none]

/-- Nothing has a score in the empty set. -/
@[simp] theorem zscore_empty : (∅ : SortedSet α).zscore m = none := rfl

/-- A stored member has its score. -/
theorem zscore_of_mem (h : e ∈ z.entries) : z.zscore e.member = some e.score :=
  zscore_eq_some.mpr h

/-- Two commands agree on a member's score when they agree on its elements. -/
theorem zscore_congr {w : SortedSet α} (h : ∀ s, ⟨m, s⟩ ∈ z.entries ↔ ⟨m, s⟩ ∈ w.entries) :
    z.zscore m = w.zscore m := by
  apply Option.ext
  intro s
  rw [zscore_eq_some, zscore_eq_some, h]

/-- `ZADD` sets the score, also of a member that was there. -/
@[simp] theorem zscore_zadd_self : (z.zadd s m).zscore m = some s :=
  zscore_eq_some.mpr (by simp)

/-- `ZADD` leaves the scores of others alone. -/
theorem zscore_zadd_ne (h : m' ≠ m) : (z.zadd s m).zscore m' = z.zscore m' :=
  zscore_congr fun s => by simp [h]

/-- `ZREM` takes the score away. -/
@[simp] theorem zscore_zrem_self : (z.zrem m).zscore m = none :=
  zscore_eq_none.mpr (by simp)

/-- `ZREM` leaves the scores of others alone. -/
theorem zscore_zrem_ne (h : m' ≠ m) : (z.zrem m).zscore m' = z.zscore m' :=
  zscore_congr fun s => by simp [h]

/-- Eviction keeps exactly the scores above the cutoff. -/
theorem zscore_zremRangeByScore {max : ℤ} :
    (z.zremRangeByScore max).zscore m = some s ↔ z.zscore m = some s ∧ max < s := by
  simp [zscore_eq_some]

/-- Removing an absent member changes nothing. -/
theorem zrem_of_zscore_eq_none (h : z.zscore m = none) : z.zrem m = z := by
  apply ext_entries
  rw [zscore_eq_none] at h
  simpa [zrem, keep, List.filter_eq_self] using h

/-- Evicting below every score changes nothing. -/
theorem zremRangeByScore_of_forall {max : ℤ} (h : ∀ e ∈ z.entries, max < e.score) :
    z.zremRangeByScore max = z := by
  apply ext_entries
  simpa [zremRangeByScore, keep, List.filter_eq_self] using h

/-- A set with nothing at or below `max` loses nothing to an eviction there. -/
theorem zremRangeByScore_of_zrangeByScore_eq_nil {max : ℤ} (h : z.zrangeByScore max = []) :
    z.zremRangeByScore max = z := by
  refine zremRangeByScore_of_forall fun e he => ?_
  rw [zrangeByScore, List.filter_eq_nil_iff] at h
  simpa using h e he

/-- Two sorted sets with the same elements are the same. -/
theorem ext_mem {w : SortedSet α} (h : ∀ e, e ∈ z.entries ↔ e ∈ w.entries) : z = w := by
  have hperm : z.entries.Perm w.entries :=
    (List.perm_ext_iff_of_nodup (List.Nodup.of_map _ z.nodup) (List.Nodup.of_map _ w.nodup)).mpr h
  refine ext_entries (hperm.eq_of_pairwise ?_ z.sorted w.sorted)
  intro a b ha hb hab hba
  refine eq_of_mem_of_member_eq ha ((h b).mpr hb) ?_
  rcases (Scored.le_def a b).mp hab with h₁ | ⟨h₁, m₁⟩ <;>
    rcases (Scored.le_def b a).mp hba with h₂ | ⟨h₂, m₂⟩
  · omega
  · omega
  · omega
  · exact le_antisymm m₁ m₂

end Elements

/-! ## Cardinality -/

section Card

variable {z : SortedSet α} {m : α} {s : ℤ}

/-- A filter adds no members. -/
theorem zcard_keep_le (p : Scored α → Bool) : (z.keep p).zcard ≤ z.zcard :=
  List.length_filter_le _ _

/-- A new member adds one element. -/
theorem zcard_zadd_new (h : z.zscore m = none) : (z.zadd s m).zcard = z.zcard + 1 := by
  have hrem := zrem_of_zscore_eq_none h
  simp only [zcard, zadd, List.orderedInsert_length, hrem]

/-- A present member is moved, not added. -/
theorem zcard_zadd_le {s' : ℤ} (h : z.zscore m = some s') : (z.zadd s m).zcard ≤ z.zcard := by
  have hlt : (z.zrem m).entries.length < z.entries.length := by
    refine List.length_filter_lt_length_iff_exists.mpr ⟨⟨m, s'⟩, zscore_eq_some.mp h, ?_⟩
    simp
  simp only [zcard, zadd, List.orderedInsert_length]
  omega

/-- Distinct members that all have a score are at most as many as the elements. -/
theorem card_le_zcard (S : Finset α) (h : ∀ m ∈ S, ∃ s, z.zscore m = some s) :
    S.card ≤ z.zcard := by
  have hsub : S ⊆ (z.entries.map Scored.member).toFinset := by
    intro m hm
    obtain ⟨s, hs⟩ := h m hm
    simp only [List.mem_toFinset, List.mem_map]
    exact ⟨⟨m, s⟩, zscore_eq_some.mp hs, rfl⟩
  calc S.card ≤ (z.entries.map Scored.member).toFinset.card := Finset.card_le_card hsub
    _ ≤ (z.entries.map Scored.member).length := List.toFinset_card_le _
    _ = z.zcard := List.length_map _

end Card

/-! ## The highest score -/

/-- No element scores above the last one. -/
theorem score_le_last {z : SortedSet α} {e top : Scored α} (htop : z.last = some top)
    (he : e ∈ z.entries) : e.score ≤ top.score := by
  obtain ⟨init, hinit⟩ := List.getLast?_eq_some_iff.mp htop
  have hsorted := z.sorted
  rw [hinit, List.pairwise_append] at hsorted
  rw [hinit, List.mem_append, List.mem_singleton] at he
  rcases he with he | rfl
  · exact Scored.score_le (hsorted.2.2 e he top (by simp))
  · exact le_rfl

/-- A set with a member has a last one. -/
theorem exists_last {z : SortedSet α} {e : Scored α} (he : e ∈ z.entries) :
    ∃ top, z.last = some top := by
  rw [← Option.isSome_iff_exists, last, List.getLast?_isSome]
  exact List.ne_nil_of_mem he

/-! ## Weights

The total weight of a sorted set under a weight of its members, and how the commands move it.
-/

section Weight

variable {M : Type*} [AddCommMonoid M] (f : α → M) {z : SortedSet α} {m : α} {s : ℤ}

/-- The sum of the weights of all members. -/
def weight (z : SortedSet α) : M := (z.entries.map fun e => f e.member).sum

/-- Nothing weighs nothing. -/
@[simp] theorem weight_empty : weight f (∅ : SortedSet α) = 0 := rfl

/-- Removing a present member takes its weight away. -/
theorem weight_zrem (h : z.zscore m = some s) : f m + weight f (z.zrem m) = weight f z := by
  have hmem := zscore_eq_some.mp h
  have hperm : z.entries.Perm (⟨m, s⟩ :: (z.zrem m).entries) := by
    refine (List.perm_ext_iff_of_nodup (List.Nodup.of_map _ z.nodup) ?_).mpr fun e => ?_
    · rw [List.nodup_cons]
      exact ⟨by simp, List.Nodup.of_map _ (z.zrem m).nodup⟩
    · rw [List.mem_cons, mem_zrem]
      constructor
      · intro he
        by_cases hm : e.member = m
        · exact Or.inl (eq_of_mem_of_member_eq he hmem hm)
        · exact Or.inr ⟨he, hm⟩
      · rintro (rfl | ⟨he, -⟩)
        · exact hmem
        · exact he
  have hsum := (hperm.map fun e => f e.member).sum_eq
  simpa [weight] using hsum.symm

/-- An insertion adds the member's weight to what is left without it. -/
theorem weight_zadd : weight f (z.zadd s m) = f m + weight f (z.zrem m) := by
  have hperm := List.perm_orderedInsert (· ≤ ·) (⟨m, s⟩ : Scored α) (z.zrem m).entries
  have hsum := (hperm.map fun e => f e.member).sum_eq
  simpa [weight, zadd] using hsum

/-- A new member adds its weight. -/
theorem weight_zadd_new (h : z.zscore m = none) : weight f (z.zadd s m) = f m + weight f z := by
  rw [weight_zadd, zrem_of_zscore_eq_none h]

/-- A new score for a member that was there changes no weight: a weight is of members, not of
scores. -/
theorem weight_zadd_old {s' : ℤ} (h : z.zscore m = some s') :
    weight f (z.zadd s m) = weight f z := by
  rw [weight_zadd, weight_zrem f h]

/-- The cardinality is the weight that counts every member once. -/
theorem zcard_eq_weight (z : SortedSet α) : z.zcard = weight (fun _ => 1) z := by
  simp [zcard, weight]

/-- A present member is moved, so the cardinality stays. -/
theorem zcard_zadd_old {s' : ℤ} (h : z.zscore m = some s') : (z.zadd s m).zcard = z.zcard := by
  rw [zcard_eq_weight, zcard_eq_weight, weight_zadd_old _ h]

/-- Removing a present member takes one away. -/
theorem zcard_zrem (h : z.zscore m = some s) : (z.zrem m).zcard + 1 = z.zcard := by
  rw [zcard_eq_weight, zcard_eq_weight, ← weight_zrem _ h, add_comm]

/-- What is evicted and what stays add up to what was there. -/
theorem weight_evict (max : ℤ) :
    ((z.zrangeByScore max).map fun e => f e.member).sum + weight f (z.zremRangeByScore max)
      = weight f z := by
  have hcompl : (z.zremRangeByScore max).entries
      = z.entries.filter fun e => !decide (e.score ≤ max) := by
    simp only [zremRangeByScore, keep, ← decide_not, not_le]
  have hperm := (List.filter_append_perm (fun e : Scored α => decide (e.score ≤ max))
    z.entries).map fun e => f e.member
  rw [weight, weight, hcompl, zrangeByScore, ← List.sum_append, ← List.map_append, hperm.sum_eq]

end Weight

end SortedSet

end Redis
