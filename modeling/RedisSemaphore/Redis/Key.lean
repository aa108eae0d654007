import RedisSemaphore.Redis.SortedSet

/-!
# Redis keys with an expiry deadline

A key is absent or holds a value, with or without an expiry deadline on the server clock. Redis
drops a key once its deadline has passed; a command that empties a sorted set drops the key as well.

`SortedSetKey` identifies the absent key with the empty set: no command tells them apart, and the
structure rules out a deadline on an absent key. `CounterKey` is a string key holding an integer.
-/

namespace Redis

/-! ## Sorted-set keys -/

/-- A key holding a sorted set. The absent key is the empty set without a deadline. -/
structure SortedSetKey (α : Type*) [LinearOrder α] where
  value : SortedSet α
  deadline : Option ℤ
  absent : value.entries = [] → deadline = none

namespace SortedSetKey

variable {α : Type*} [LinearOrder α]

/-- A key with the given content; an empty set leaves no key behind. -/
def store (value : SortedSet α) (deadline : Option ℤ) : SortedSetKey α where
  value := value
  deadline := if value.entries = [] then none else deadline
  absent h := if_pos h

/-- The absent key. -/
def missing : SortedSetKey α := store ∅ none

instance : EmptyCollection (SortedSetKey α) := ⟨missing⟩

/-- Run a command that changes the content; the deadline of a surviving key is kept. -/
def update (k : SortedSetKey α) (f : SortedSet α → SortedSet α) : SortedSetKey α :=
  store (f k.value) k.deadline

/-- `PEXPIRE` at server time `time`: a time to live that is not positive deletes the key. This is
the command where it succeeds; it refuses a number that it cannot read as a signed 64-bit integer,
and one whose deadline would leave that range (`Redis.Script.pexpire`). -/
def pexpire (time ttl : ℤ) (k : SortedSetKey α) : SortedSetKey α :=
  if ttl ≤ 0 then ∅ else store k.value (some (time + ttl))

/-- `PTTL` at server time `time`: `-2` without the key, `-1` without a deadline. -/
def pttl (time : ℤ) (k : SortedSetKey α) : ℤ :=
  if k.value.entries = [] then -2
  else match k.deadline with
    | none => -1
    | some d => d - time

/-- Drop the key once its deadline has passed. -/
def expire (time : ℤ) (k : SortedSetKey α) : SortedSetKey α :=
  match k.deadline with
  | none => k
  | some d => if d ≤ time then ∅ else k

/-- The value that was written. -/
@[simp] theorem value_store (z : SortedSet α) (d : Option ℤ) : (store z d).value = z := rfl

/-- The key that does not exist has an empty value. -/
@[simp] theorem value_empty : (∅ : SortedSetKey α).value = ∅ := rfl

/-- The key that does not exist has no deadline. -/
@[simp] theorem deadline_empty : (∅ : SortedSetKey α).deadline = none := rfl

/-- A command on the value. -/
@[simp] theorem value_update (k : SortedSetKey α) (f : SortedSet α → SortedSet α) :
    (k.update f).value = f k.value := rfl

/-- Rewriting the content a key has changes nothing. -/
@[simp] theorem store_value_deadline (k : SortedSetKey α) : store k.value k.deadline = k := by
  obtain ⟨value, deadline, habsent⟩ := k
  simp only [store, mk.injEq, true_and]
  split
  · rename_i h
    exact (habsent h).symm
  · rfl

/-- A content that is not emptied keeps the deadline it had. -/
theorem deadline_store {z : SortedSet α} {d : Option ℤ} {t : ℤ}
    (h : (store z d).deadline = some t) : d = some t := by
  simp only [store] at h
  split at h
  · cases h
  · exact h

/-- A write that leaves a member leaves the deadline. -/
theorem deadline_store_of_mem {z : SortedSet α} {e : Scored α} (he : e ∈ z.entries)
    (d : Option ℤ) : (store z d).deadline = d :=
  if_neg (List.ne_nil_of_mem he)

/-- A deadline that is still to come removes nothing. -/
theorem value_pexpire {time ttl : ℤ} (h : 0 < ttl) (k : SortedSetKey α) :
    (k.pexpire time ttl).value = k.value := by
  rw [pexpire, if_neg (by omega), value_store]

/-- What `PEXPIRE` leaves was there before. -/
theorem mem_of_mem_pexpire {time ttl : ℤ} {k : SortedSetKey α} {e : Scored α}
    (he : e ∈ (k.pexpire time ttl).value.entries) : e ∈ k.value.entries := by
  rw [pexpire] at he
  split at he
  · simp at he
  · exact he

/-- A key that `PEXPIRE` leaves has the deadline it set. -/
theorem deadline_pexpire {time ttl d : ℤ} {k : SortedSetKey α}
    (h : (k.pexpire time ttl).deadline = some d) : d = time + ttl := by
  rw [pexpire] at h
  split at h
  · simp at h
  · exact (Option.some.inj (deadline_store h)).symm

/-- A key that has time to live has a deadline. -/
theorem exists_deadline_of_pttl_pos {time : ℤ} {k : SortedSetKey α} (h : 0 < k.pttl time) :
    ∃ d, k.deadline = some d ∧ k.pttl time = d - time := by
  rw [pttl] at h ⊢
  split at h
  · omega
  · rename_i hne
    split at h
    · omega
    · rename_i d hd
      exact ⟨d, hd, if_neg hne⟩

/-- Expiry invents no members. -/
theorem mem_of_mem_expire {time : ℤ} {k : SortedSetKey α} {e : Scored α}
    (he : e ∈ (k.expire time).value.entries) : e ∈ k.value.entries := by
  rw [expire] at he
  split at he
  · exact he
  · split at he
    · simp at he
    · exact he

/-- Expiry either leaves the key alone or finds its deadline passed and drops it. -/
theorem expire_cases (time : ℤ) (k : SortedSetKey α) :
    k.expire time = k ∨ k.expire time = ∅ ∧ ∃ d, k.deadline = some d ∧ d ≤ time := by
  rw [expire]
  split
  · exact Or.inl rfl
  · rename_i d hd
    split
    · rename_i hle
      exact Or.inr ⟨rfl, d, hd, hle⟩
    · exact Or.inl rfl

end SortedSetKey

/-! ## Counter keys -/

/-- The content of a string key that holds an integer. -/
structure Counter where
  value : ℤ
  deadline : Option ℤ
  deriving DecidableEq, Repr

/-- A string key holding an integer, or no key. -/
abbrev CounterKey := Option Counter

namespace CounterKey

/-- `GET`. -/
def get (k : CounterKey) : Option ℤ := k.map Counter.value

/-- The expiry deadline, if there is a key and it has one. -/
def deadline (k : CounterKey) : Option ℤ := k.bind Counter.deadline

/-- `SET value PX ttl` at server time `time`. -/
def setPx (time value ttl : ℤ) : CounterKey := some ⟨value, some (time + ttl)⟩

/-- `INCRBY`: an absent key counts from `0` and gets no deadline; an existing one keeps its own. -/
def incrby (k : CounterKey) (n : ℤ) : CounterKey :=
  match k with
  | none => some ⟨n, none⟩
  | some c => some { c with value := c.value + n }

/-- `DECRBY`. -/
def decrby (k : CounterKey) (n : ℤ) : CounterKey := k.incrby (-n)

/-- `PEXPIRE` at server time `time`: a time to live that is not positive deletes the key. -/
def pexpire (time ttl : ℤ) (k : CounterKey) : CounterKey :=
  if ttl ≤ 0 then none else k.map fun c => { c with deadline := some (time + ttl) }

/-- Drop the key once its deadline has passed. -/
def expire (time : ℤ) (k : CounterKey) : CounterKey :=
  k.filter fun c => match c.deadline with
    | none => true
    | some d => time < d

/-- The key that does not exist. -/
@[simp] theorem get_none : get none = none := rfl

/-- `SET` stores its value. -/
@[simp] theorem get_setPx (time value ttl : ℤ) : get (setPx time value ttl) = some value := rfl

/-- `INCRBY` counts from `0` where there is no key. -/
@[simp] theorem get_incrby (k : CounterKey) (n : ℤ) :
    get (k.incrby n) = some ((get k).getD 0 + n) := by
  cases k <;> simp [incrby, get]

/-- So does `DECRBY`. -/
@[simp] theorem get_decrby (k : CounterKey) (n : ℤ) :
    get (k.decrby n) = some ((get k).getD 0 - n) := by
  simp [decrby, sub_eq_add_neg]

/-- A deadline that is still to come changes no value. -/
theorem get_pexpire {time ttl : ℤ} (h : 0 < ttl) (k : CounterKey) :
    get (k.pexpire time ttl) = get k := by
  rw [pexpire, if_neg (by omega)]
  cases k <;> rfl

/-- The key that does not exist has no deadline. -/
@[simp] theorem deadline_none : deadline none = none := rfl

/-- `SET … PX` sets the deadline with the value. -/
@[simp] theorem deadline_setPx (time value ttl : ℤ) :
    deadline (setPx time value ttl) = some (time + ttl) := rfl

/-- `INCRBY` leaves a deadline as it is. -/
@[simp] theorem deadline_incrby (k : CounterKey) (n : ℤ) : deadline (k.incrby n) = deadline k := by
  cases k <;> rfl

/-- `DECRBY` keeps the deadline, and a key it creates has none. -/
@[simp] theorem deadline_decrby (k : CounterKey) (n : ℤ) : deadline (k.decrby n) = deadline k :=
  deadline_incrby k (-n)

/-- A key that `PEXPIRE` leaves has the deadline it set. -/
theorem deadline_pexpire {time ttl : ℤ} {k : CounterKey} (h : k.pexpire time ttl ≠ none) :
    deadline (k.pexpire time ttl) = some (time + ttl) := by
  unfold pexpire at h ⊢
  split at h
  · exact absurd rfl h
  · rename_i hpos
    rw [if_neg hpos]
    cases k with
    | none => exact absurd rfl h
    | some c => rfl

/-- A key that is still there has not been touched by expiry. -/
theorem expire_of_ne_none {time : ℤ} {k : CounterKey} (h : k.expire time ≠ none) :
    k.expire time = k := by
  obtain ⟨c, hc⟩ := Option.ne_none_iff_exists'.mp h
  rw [hc]
  exact (Option.filter_eq_some_iff.mp hc).1.symm

/-- What expiry leaves is the key itself. -/
theorem get_expire {time v : ℤ} {k : CounterKey} (h : get (k.expire time) = some v) :
    get k = some v := by
  cases k with
  | none => simp [expire] at h
  | some c =>
    simp only [get, expire, Option.map_eq_some_iff, Option.filter_eq_some_iff] at h ⊢
    obtain ⟨a, ⟨ha, -⟩, hv⟩ := h
    exact ⟨a, ha, hv⟩

end CounterKey

end Redis
