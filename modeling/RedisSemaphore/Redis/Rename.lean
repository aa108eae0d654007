import Mathlib.Order.Hom.Basic
import RedisSemaphore.Redis.Key

/-!
# Sorted sets under a renaming of the members

A script may see structure in the members of a sorted set that Redis does not: Redis compares and
stores byte strings, a program reads records out of them. Where the names of the members are
ordered as the members are (`f : α ↪o β`), every command on the names is the command on the
members. That is one lemma for each command: first on the value, `SortedSet.map`, then on the key
with its deadline, `SortedSetKey.map`.

The order matters as much as injectivity. Entries of equal score stand in the order of their
members, so a renaming that kept members apart but moved them would change what a range answers.
-/

namespace Redis

variable {α β : Type*}

/-- The element under its name. -/
def Scored.map (f : α → β) (e : Scored α) : Scored β := ⟨f e.member, e.score⟩

variable [LinearOrder α] [LinearOrder β] (f : α ↪o β)

/-- The order of the set, by score and then by member, is kept: `f` embeds the members. -/
theorem Scored.map_le_map {a b : Scored α} : a.map f ≤ b.map f ↔ a ≤ b := by
  simp only [Scored.le_def, Scored.map, f.le_iff_le]

namespace SortedSet

/-- The set of the names. -/
def map (z : SortedSet α) : SortedSet β where
  entries := z.entries.map (Scored.map f)
  sorted := List.pairwise_map.mpr (z.sorted.imp (Scored.map_le_map f).mpr)
  nodup := by
    rw [List.map_map]
    show (z.entries.map (f ∘ Scored.member)).Nodup
    rw [← List.map_map]
    exact z.nodup.map f.injective

variable {z : SortedSet α} {m : α} {s max : ℤ}

/-- The entries of the named set, in their order. -/
@[simp] theorem entries_map : (z.map f).entries = z.entries.map (Scored.map f) := rfl

/-- An entry of the named set is an entry of the set under its name. -/
theorem mem_map {e : Scored β} :
    e ∈ (z.map f).entries ↔ ∃ d ∈ z.entries, d.map f = e := List.mem_map

/-- The empty set has no names. -/
@[simp] theorem map_empty : (∅ : SortedSet α).map f = ∅ := rfl

/-- Naming neither merges nor drops members. -/
@[simp] theorem zcard_map : (z.map f).zcard = z.zcard := List.length_map _

/-- A name has the score of its member. Only injectivity is used: no other member has the name. -/
@[simp] theorem zscore_map : (z.map f).zscore (f m) = z.zscore m := by
  refine Option.ext fun t => ?_
  show (z.map f).zscore (f m) = some t ↔ z.zscore m = some t
  rw [zscore_eq_some, zscore_eq_some, mem_map]
  constructor
  · rintro ⟨d, hd, heq⟩
    obtain ⟨hmember, rfl⟩ := Scored.mk.inj heq
    obtain rfl := f.injective hmember
    exact hd
  · exact fun h => ⟨_, h, rfl⟩

/-- Filtering commutes with naming where the two tests agree on every entry. The commands that
only remove are instances. -/
theorem map_keep {p : Scored α → Bool} {q : Scored β → Bool} (h : ∀ e, q (e.map f) = p e) :
    (z.keep p).map f = (z.map f).keep q := by
  refine ext_entries ?_
  show (z.entries.filter p).map (Scored.map f) = (z.entries.map (Scored.map f)).filter q
  rw [List.filter_map]
  exact congrArg _ (List.filter_congr fun e _ => (h e).symm)

/-- `ZREM` of a name is `ZREM` of the member. -/
theorem map_zrem : (z.zrem m).map f = (z.map f).zrem (f m) :=
  map_keep f fun e => by simp [Scored.map]

/-- `ZREMRANGEBYSCORE` looks at scores, which names leave alone. -/
theorem map_zremRangeByScore : (z.zremRangeByScore max).map f = (z.map f).zremRangeByScore max :=
  map_keep f fun _ => rfl

/-- `ZRANGEBYSCORE` answers the names of what it would have answered, in the same order. -/
theorem map_zrangeByScore :
    (z.zrangeByScore max).map (Scored.map f) = (z.map f).zrangeByScore max := by
  rw [zrangeByScore, zrangeByScore, entries_map, List.filter_map]
  rfl

/-- `ZRANGE` counts positions, and the names stand where the members stood. -/
theorem map_zrange {start stop : ℕ} :
    (z.zrange start stop).map (Scored.map f) = (z.map f).zrange start stop := by
  rw [zrange, zrange, entries_map, List.map_take, List.map_drop]

/-- `ZADD` of a name is `ZADD` of the member: the entry it replaces is the same one, and the new
one takes the same place, since the order of the names is the order of the members. -/
theorem map_zadd : (z.zadd s m).map f = (z.map f).zadd s (f m) := by
  refine ext_mem fun e => ?_
  rw [mem_map, mem_zadd]
  constructor
  -- An entry of either side is the new one, or an old one with another member.
  · rintro ⟨d, hd, rfl⟩
    rcases mem_zadd.mp hd with rfl | ⟨hd, hne⟩
    · exact Or.inl rfl
    · exact Or.inr ⟨(mem_map f).mpr ⟨d, hd, rfl⟩, fun heq => hne (f.injective heq)⟩
  · rintro (rfl | ⟨he, hne⟩)
    · exact ⟨⟨m, s⟩, mem_zadd.mpr (Or.inl rfl), rfl⟩
    · obtain ⟨d, hd, rfl⟩ := (mem_map f).mp he
      exact ⟨d, mem_zadd.mpr (Or.inr ⟨hd, fun heq => hne (congrArg f heq)⟩), rfl⟩

end SortedSet

namespace SortedSetKey

/-- The key with the names. -/
def map (k : SortedSetKey α) : SortedSetKey β where
  value := k.value.map f
  deadline := k.deadline
  absent h := k.absent (List.map_eq_nil_iff.mp h)

variable {k : SortedSetKey α}

/-- The value behind the key. -/
@[simp] theorem value_map : (k.map f).value = k.value.map f := rfl

/-- A write that leaves nothing deletes the key under either naming. -/
theorem map_store {z : SortedSet α} {d : Option ℤ} : (store z d).map f = store (z.map f) d := by
  simp only [store, map, SortedSet.entries_map, List.map_eq_nil_iff]

/-- A command on the key commutes with naming as soon as it does on the value. -/
theorem map_update {g : SortedSet α → SortedSet α} {g' : SortedSet β → SortedSet β}
    (h : (g k.value).map f = g' (k.value.map f)) : (k.update g).map f = (k.map f).update g' := by
  rw [update, update, map_store, h]
  rfl

/-- The key that does not exist. -/
theorem map_empty : (∅ : SortedSetKey α).map f = ∅ := map_store f

/-- `PEXPIRE` does not look at the members, only at whether there are any. -/
theorem map_pexpire {time ttl : ℤ} : (k.pexpire time ttl).map f = (k.map f).pexpire time ttl := by
  rw [pexpire, pexpire]
  split
  -- A time to live that is not positive deletes the key.
  · exact map_empty f
  · exact map_store f

/-- `PTTL` answers the same for both. -/
@[simp] theorem pttl_map {time : ℤ} : (k.map f).pttl time = k.pttl time := by
  simp only [pttl, value_map, SortedSet.entries_map, List.map_eq_nil_iff]
  rfl

/-- Expiry takes both keys at the same time. -/
theorem map_expire {time : ℤ} : (k.expire time).map f = (k.map f).expire time := by
  have hdeadline : (k.map f).deadline = k.deadline := rfl
  rw [expire]
  split
  · rename_i hnone
    rw [expire, hdeadline, hnone]
  · rename_i d hd
    rw [expire, hdeadline, hd]
    dsimp only
    split
    · exact map_empty f
    · rfl

end SortedSetKey

end Redis
