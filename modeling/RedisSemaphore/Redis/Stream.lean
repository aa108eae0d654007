import Mathlib.Data.Finset.Basic
import Mathlib.Data.Int.Notation
import Mathlib.Data.List.TakeWhile

/-!
# Redis streams with a consumer group

A stream holds entries in the order of their identifiers and has at most one consumer group here.
The group remembers the last identifier it delivered and, in its pending list, every entry delivered
and not yet acknowledged, with the consumer that has it and since when. Order and bounds are fields
of the structures, so every value built by the commands below is a stream Redis could hold.

The commands come first, each a function on the key. What they do to one identifier, and to the
list as a whole, is said afterwards in four relations, so that a proof about many commands has one
fact for each of them:

* `Shrinks`: the entries stay and nothing is delivered, so nothing becomes pending.
* `Advances`: entries may go and newer ones may become pending, true of every command but `XADD`.
* `Pends`: one stored entry keeps its place in the pending list, where `P` says what place.
* `Renews`: places of the list are kept, or are younger than a bound.

An entry that was deleted while pending is treated differently across versions: from Redis 7 on,
claiming drops it from the pending list, before that it is reported as nil. The flag `drops` selects
the former.
-/

namespace Redis

/-- One entry of a stream. Redis writes identifiers as a time and a counter; only their order
matters. -/
structure StreamEntry (φ : Type*) where
  id : ℕ
  fields : φ

/-- An entry of the pending list. -/
structure PendingEntry (γ : Type*) where
  id : ℕ
  consumer : γ
  since : ℤ

/-- What `XINFO CONSUMERS` says about one consumer. -/
structure ConsumerInfo (γ : Type*) where
  name : γ
  pending : ℕ
  idle : ℤ

/-- A consumer group; `consumers` are the registered ones, with the time of their last command. -/
structure ConsumerGroup (γ : Type*) where
  lastDelivered : ℕ
  pending : List (PendingEntry γ)
  consumers : List (γ × ℤ)
  sorted : pending.Pairwise fun p q => p.id < q.id
  le : ∀ p ∈ pending, p.id ≤ lastDelivered

/-- A key holding a stream and its group. -/
structure StreamKey (γ φ : Type*) where
  entries : List (StreamEntry φ)
  lastId : ℕ
  group : Option (ConsumerGroup γ)
  sorted : entries.Pairwise fun e f => e.id < f.id
  le : ∀ e ∈ entries, e.id ≤ lastId
  delivered_le : ∀ g, group = some g → g.lastDelivered ≤ lastId

variable {γ φ : Type*}

/-! ## The last of some entries -/

/-- The identifier a reader is at after each of the entries in turn, starting at `d`. -/
def lastIdOf (d : ℕ) : List (StreamEntry φ) → ℕ
  | [] => d
  | e :: es => lastIdOf e.id es

/-- The reader stays where it was, or is at one of the entries. -/
theorem lastIdOf_eq (d : ℕ) (es : List (StreamEntry φ)) :
    lastIdOf d es = d ∨ ∃ e ∈ es, lastIdOf d es = e.id := by
  induction es generalizing d with
  | nil => exact Or.inl rfl
  | cons e es ih =>
    rcases ih e.id with h | ⟨f, hf, h⟩
    · exact Or.inr ⟨e, List.mem_cons_self, h⟩
    · exact Or.inr ⟨f, List.mem_cons_of_mem e hf, h⟩

/-- Ascending entries end at the greatest. -/
theorem le_lastIdOf {d : ℕ} {es : List (StreamEntry φ)}
    (hsorted : es.Pairwise fun e f => e.id < f.id) (hnew : ∀ e ∈ es, d < e.id) :
    d ≤ lastIdOf d es ∧ ∀ e ∈ es, e.id ≤ lastIdOf d es := by
  induction es generalizing d with
  | nil => exact ⟨le_rfl, by simp⟩
  | cons e es ih =>
    obtain ⟨hhead, htail⟩ := List.pairwise_cons.mp hsorted
    obtain ⟨hle, hall⟩ := ih htail hhead
    have hd := hnew e List.mem_cons_self
    refine ⟨hd.le.trans hle, fun f hf => ?_⟩
    rcases List.mem_cons.mp hf with rfl | hf
    · exact hle
    · exact hall f hf

/-! ## Groups -/

namespace ConsumerGroup

/-- The group `XGROUP CREATE` with the identifier `0` makes. -/
def empty : ConsumerGroup γ := ⟨0, [], [], .nil, by simp⟩

/-- A command of a consumer registers it, or renews the time of its last command. -/
def seen [DecidableEq γ] (g : ConsumerGroup γ) (c : γ) (now : ℤ) : List (γ × ℤ) :=
  g.consumers.filter (·.1 ≠ c) ++ [(c, now)]

/-- Replace the pending list by one with fewer identifiers. -/
def withPending (g : ConsumerGroup γ) (pending : List (PendingEntry γ))
    (h : (pending.map (·.id)).Sublist (g.pending.map (·.id))) (consumers : List (γ × ℤ)) :
    ConsumerGroup γ where
  lastDelivered := g.lastDelivered
  pending := pending
  consumers := consumers
  sorted := List.pairwise_map.mp ((List.pairwise_map.mpr g.sorted).sublist h)
  le p hp := by
    have hid : p.id ∈ g.pending.map (·.id) := h.subset (List.mem_map_of_mem hp)
    obtain ⟨q, hq, hqp⟩ := List.mem_map.mp hid
    exact hqp ▸ g.le q hq

/-- Deliver entries that are newer than every earlier delivery. -/
def deliver (g : ConsumerGroup γ) (c : γ) (now : ℤ) (es : List (StreamEntry φ))
    (hsorted : es.Pairwise fun e f => e.id < f.id) (hnew : ∀ e ∈ es, g.lastDelivered < e.id)
    (consumers : List (γ × ℤ)) : ConsumerGroup γ where
  lastDelivered := lastIdOf g.lastDelivered es
  pending := g.pending ++ es.map fun e => ⟨e.id, c, now⟩
  consumers := consumers
  sorted := by
    rw [List.pairwise_append]
    refine ⟨g.sorted, List.pairwise_map.mpr hsorted, ?_⟩
    intro p hp q hq
    obtain ⟨e, he, rfl⟩ := List.mem_map.mp hq
    exact (g.le p hp).trans_lt (hnew e he)
  le p hp := by
    rcases List.mem_append.mp hp with hp | hp
    · exact (g.le p hp).trans (le_lastIdOf hsorted hnew).1
    · obtain ⟨e, he, rfl⟩ := List.mem_map.mp hp
      exact (le_lastIdOf hsorted hnew).2 e he

end ConsumerGroup

/-! ## Streams -/

namespace StreamKey

/-- The missing key. -/
def missing : StreamKey γ φ := ⟨[], 0, none, .nil, by simp, by simp⟩

/-- The fields of an entry that has not been deleted. -/
def fieldsOf (s : StreamKey γ φ) (id : ℕ) : Option φ :=
  (s.entries.find? (·.id = id)).map StreamEntry.fields

/-- The identifiers in the pending list. -/
def pendingIds (s : StreamKey γ φ) : List ℕ :=
  match s.group with
  | none => []
  | some g => g.pending.map PendingEntry.id

/-- The last identifier delivered; a group yet to be made starts at `0`. -/
def lastDelivered (s : StreamKey γ φ) : ℕ :=
  match s.group with
  | none => 0
  | some g => g.lastDelivered

/-- `XADD`. -/
def add (s : StreamKey γ φ) (id : ℕ) (fields : φ) (h : s.lastId < id) : StreamKey γ φ where
  entries := s.entries ++ [⟨id, fields⟩]
  lastId := id
  group := s.group
  sorted := by
    rw [List.pairwise_append]
    refine ⟨s.sorted, List.pairwise_singleton _ _, ?_⟩
    intro e he f hf
    obtain rfl := List.mem_singleton.mp hf
    exact (s.le e he).trans_lt h
  le e he := by
    rcases List.mem_append.mp he with he | he
    · exact (s.le e he).trans h.le
    · exact (List.mem_singleton.mp he) ▸ le_rfl
  delivered_le g hg := (s.delivered_le g hg).trans h.le

/-- `XDEL` of one entry. -/
def del (s : StreamKey γ φ) (id : ℕ) : StreamKey γ φ where
  entries := s.entries.filter (·.id ≠ id)
  lastId := s.lastId
  group := s.group
  sorted := s.sorted.filter _
  le e he := s.le e (List.mem_of_mem_filter he)
  delivered_le := s.delivered_le

/-- `XGROUP CREATE` with the identifier `0`: an existing group stays as it is. -/
def createGroup (s : StreamKey γ φ) : StreamKey γ φ where
  entries := s.entries
  lastId := s.lastId
  group := some (s.group.getD .empty)
  sorted := s.sorted
  le := s.le
  delivered_le g hg := by
    obtain rfl := Option.some.inj hg
    cases h : s.group with
    | none => exact Nat.zero_le _
    | some g => exact s.delivered_le g h

/-- Replace the pending list of the group by one with fewer identifiers. -/
def withPending (s : StreamKey γ φ) (g : ConsumerGroup γ) (hg : s.group = some g)
    (pending : List (PendingEntry γ))
    (h : (pending.map PendingEntry.id).Sublist (g.pending.map PendingEntry.id))
    (consumers : List (γ × ℤ)) : StreamKey γ φ where
  entries := s.entries
  lastId := s.lastId
  group := some (g.withPending pending h consumers)
  sorted := s.sorted
  le := s.le
  delivered_le g' hg' := by
    obtain rfl := Option.some.inj hg'
    exact s.delivered_le g hg

/-- The entries `XREADGROUP` with `>` delivers. -/
def unread (s : StreamKey γ φ) (count : ℕ) : List (StreamEntry φ) :=
  (s.entries.filter (s.lastDelivered < ·.id)).take count

/-- What is unread is stored and newer than every delivery. -/
theorem mem_of_mem_unread {s : StreamKey γ φ} {count : ℕ} {e : StreamEntry φ}
    (h : e ∈ s.unread count) : e ∈ s.entries ∧ s.lastDelivered < e.id := by
  simpa using List.mem_of_mem_take h

/-- Delivery keeps the order of the stream. -/
theorem sorted_unread (s : StreamKey γ φ) (count : ℕ) :
    (s.unread count).Pairwise fun e f => e.id < f.id :=
  (s.sorted.filter _).sublist (List.take_sublist _ _)

/-- `XREADGROUP` with `>` by consumer `c`: deliver unread entries. There is no answer without a
group. -/
def readNew [DecidableEq γ] (s : StreamKey γ φ) (c : γ) (count : ℕ) (now : ℤ) :
    Option (StreamKey γ φ × List (StreamEntry φ)) :=
  -- without a group Redis answers NOGROUP
  match hg : s.group with
  | none => none
  | some g =>
    have hnew : ∀ e ∈ s.unread count, g.lastDelivered < e.id := fun e he => by
      simpa only [lastDelivered, hg] using (mem_of_mem_unread he).2
    some (
      { entries := s.entries
        lastId := s.lastId
        group := some (g.deliver c now (s.unread count) (s.sorted_unread count) hnew (g.seen c now))
        sorted := s.sorted
        le := s.le
        delivered_le := fun g' hg' => by
          obtain rfl := Option.some.inj hg'
          rcases lastIdOf_eq g.lastDelivered (s.unread count) with h | ⟨e, he, h⟩
          · exact h.trans_le (s.delivered_le g hg)
          · exact h.trans_le (s.le e (mem_of_mem_unread he).1) },
      s.unread count)

/-- `XREADGROUP` with `0` by consumer `c`: its own pending entries, oldest first. -/
def readOwn [DecidableEq γ] (s : StreamKey γ φ) (c : γ) (count : ℕ) (now : ℤ) :
    Option (StreamKey γ φ × List (ℕ × Option φ)) :=
  match hg : s.group with
  | none => none
  | some g =>
    some (s.withPending g hg g.pending (.refl _) (g.seen c now),
      ((g.pending.filter (·.consumer = c)).take count).map fun p => (p.id, s.fieldsOf p.id))

/-- The pending list after a scan of `XAUTOCLAIM`, what it claimed and where it stopped. -/
structure Scan (γ : Type*) where
  pending : List (PendingEntry γ)
  claimed : List ℕ
  next : ℕ

/-- The scan of `XAUTOCLAIM`: it looks at no more than `attempts` pending entries and claims no more
than `count` of those that have been idle for `minIdle`. -/
def scan (live : ℕ → Bool) (drops : Bool) (c : γ) (minIdle now : ℤ) :
    ℕ → ℕ → List (PendingEntry γ) → Scan γ
  | _, _, [] => ⟨[], [], 0⟩
  | 0, _, p :: ps => ⟨p :: ps, [], p.id⟩
  | _, 0, p :: ps => ⟨p :: ps, [], p.id⟩
  | attempts + 1, count + 1, p :: ps =>
    -- a deleted entry counts as one of the claimed, as it does in `XAUTOCLAIM`
    if drops && !live p.id then scan live drops c minIdle now attempts count ps
    else if now - p.since < minIdle then
      let r := scan live drops c minIdle now attempts (count + 1) ps
      ⟨p :: r.pending, r.claimed, r.next⟩
    else
      let r := scan live drops c minIdle now attempts count ps
      ⟨⟨p.id, c, now⟩ :: r.pending, p.id :: r.claimed, r.next⟩

section Scan

variable {live : ℕ → Bool} {drops : Bool} {c : γ} {minIdle now : ℤ} {attempts count : ℕ}
  {ps : List (PendingEntry γ)}

/-- A scan keeps the order and invents nothing. -/
theorem scan_sublist :
    ((scan live drops c minIdle now attempts count ps).pending.map PendingEntry.id).Sublist
        (ps.map PendingEntry.id) ∧
      (scan live drops c minIdle now attempts count ps).claimed.Sublist
        (ps.map PendingEntry.id) := by
  fun_induction scan with
  | case1 => exact ⟨.refl _, .refl _⟩
  | case2 => exact ⟨.refl _, List.nil_sublist _⟩
  | case3 => exact ⟨.refl _, List.nil_sublist _⟩
  | case4 attempts count p ps hdrop ih => exact ⟨ih.1.cons _, ih.2.cons _⟩
  | case5 attempts count p ps hdrop hfresh r ih => exact ⟨ih.1.cons_cons _, ih.2.cons _⟩
  | case6 attempts count p ps hdrop hfresh r ih => exact ⟨ih.1.cons_cons _, ih.2.cons_cons _⟩

/-- A scan drops only deleted entries. -/
theorem mem_scan {id : ℕ} (hid : id ∈ ps.map PendingEntry.id) (hlive : live id = true) :
    id ∈ (scan live drops c minIdle now attempts count ps).pending.map PendingEntry.id := by
  fun_induction scan with
  | case1 => exact hid
  | case2 => exact hid
  | case3 => exact hid
  | case4 attempts count p ps hdrop ih =>
    rcases List.mem_cons.mp hid with rfl | hid
    · simp [hlive] at hdrop
    · exact ih hid
  | case5 attempts count p ps hdrop hfresh r ih =>
    exact (List.mem_cons.mp hid).elim (fun h => h ▸ List.mem_cons_self)
      fun h => List.mem_cons_of_mem _ (ih h)
  | case6 attempts count p ps hdrop hfresh r ih =>
    exact (List.mem_cons.mp hid).elim (fun h => h ▸ List.mem_cons_self)
      fun h => List.mem_cons_of_mem _ (ih h)

/-- A scan claims an entry that has been idle long enough, where it gets that far. -/
theorem mem_claimed_scan {pre post : List (PendingEntry γ)} {p : PendingEntry γ}
    (hattempts : pre.length < attempts)
    (hcount : pre.countP (fun q => minIdle ≤ now - q.since ∨ (drops && !live q.id) = true) < count)
    (hlive : live p.id = true) (hidle : minIdle ≤ now - p.since) :
    p.id ∈ (scan live drops c minIdle now attempts count (pre ++ p :: post)).claimed := by
  -- induction on what stands before the entry: each of these costs an attempt, and a claim if it
  -- is idle or dropped
  induction pre generalizing attempts count with
  | nil =>
    obtain ⟨attempts, rfl⟩ := Nat.exists_eq_add_one_of_ne_zero (Nat.ne_zero_of_lt hattempts)
    obtain ⟨count, rfl⟩ := Nat.exists_eq_add_one_of_ne_zero (Nat.ne_zero_of_lt hcount)
    simp [scan, hlive, Int.not_lt.mpr hidle]
  | cons q pre ih =>
    obtain ⟨attempts, rfl⟩ := Nat.exists_eq_add_one_of_ne_zero (Nat.ne_zero_of_lt hattempts)
    obtain ⟨count, rfl⟩ := Nat.exists_eq_add_one_of_ne_zero (Nat.ne_zero_of_lt hcount)
    have hattempts' : pre.length < attempts := Nat.lt_of_succ_lt_succ hattempts
    rw [List.countP_cons] at hcount
    rw [List.cons_append, scan]
    by_cases hdrop : (drops && !live q.id) = true
    · rw [if_pos hdrop]
      rw [if_pos (by simp [hdrop])] at hcount
      exact ih hattempts' (Nat.lt_of_succ_lt_succ hcount)
    · rw [if_neg hdrop]
      by_cases hfresh : now - q.since < minIdle
      · rw [if_pos hfresh]
        rw [if_neg (by simp [hdrop, Int.not_le.mpr hfresh])] at hcount
        exact ih hattempts' hcount
      · rw [if_neg hfresh]
        rw [if_pos (by simp [Int.not_lt.mp hfresh])] at hcount
        exact List.mem_cons_of_mem _ (ih hattempts' (Nat.lt_of_succ_lt_succ hcount))

/-- What a scan does not claim stays as it is, unless it was deleted. -/
theorem mem_pending_scan {p : PendingEntry γ} (hp : p ∈ ps) (hlive : live p.id = true)
    (hnot : p.id ∉ (scan live drops c minIdle now attempts count ps).claimed) :
    p ∈ (scan live drops c minIdle now attempts count ps).pending := by
  fun_induction scan with
  | case1 => exact hp
  | case2 => exact hp
  | case3 => exact hp
  | case4 attempts count q ps hdrop ih =>
    rcases List.mem_cons.mp hp with rfl | hp
    · simp [hlive] at hdrop
    · exact ih hp hnot
  | case5 attempts count q ps hdrop hfresh r ih =>
    rcases List.mem_cons.mp hp with rfl | hp
    · exact List.mem_cons_self
    · exact List.mem_cons_of_mem _ (ih hp hnot)
  | case6 attempts count q ps hdrop hfresh r ih =>
    rcases List.mem_cons.mp hp with rfl | hp
    · exact absurd List.mem_cons_self hnot
    · exact List.mem_cons_of_mem _ (ih hp fun h => hnot (List.mem_cons_of_mem _ h))

end Scan

/-- What a claim reports of an identifier: nil twice if the entry was deleted. -/
def report (s : StreamKey γ φ) (id : ℕ) : Option ℕ × Option φ :=
  match s.fieldsOf id with
  | some fields => (some id, some fields)
  | none => (none, none)

/-- The scan starts where the cursor points. -/
theorem scanFrom_sublist {start : ℕ} {ps after : List (PendingEntry γ)}
    (h : (after.map PendingEntry.id).Sublist
      ((ps.dropWhile (·.id < start)).map PendingEntry.id)) :
    ((ps.takeWhile (·.id < start) ++ after).map PendingEntry.id).Sublist
      (ps.map PendingEntry.id) := by
  conv_rhs => rw [← List.takeWhile_append_dropWhile (p := (·.id < start)) (l := ps)]
  rw [List.map_append, List.map_append]
  exact (List.Sublist.refl _).append h

/-- `XAUTOCLAIM` by consumer `c`, from the cursor `start`: the stream, the report and the cursor to
continue from, `0` at the end. -/
def autoclaim [DecidableEq γ] (drops : Bool) (s : StreamKey γ φ) (c : γ) (minIdle : ℤ)
    (start count : ℕ) (now : ℤ) : Option (StreamKey γ φ × List (Option ℕ × Option φ) × ℕ) :=
  match hg : s.group with
  | none => none
  | some g =>
    let r := scan (fun id => (s.fieldsOf id).isSome) drops c minIdle now (10 * count) count
      (g.pending.dropWhile (·.id < start))
    some (s.withPending g hg (g.pending.takeWhile (·.id < start) ++ r.pending)
      (scanFrom_sublist scan_sublist.1) (g.seen c now), r.claimed.map s.report, r.next)

/-- What `XCLAIM` makes of one pending entry. -/
def claimOne (drops : Bool) (s : StreamKey γ φ) (c : γ) (ids : Finset ℕ) (since : ℤ)
    (p : PendingEntry γ) : Option (PendingEntry γ) :=
  if p.id ∈ ids then
    if drops && !(s.fieldsOf p.id).isSome then none else some ⟨p.id, c, since⟩
  else some p

/-- A claim changes whose an entry is and since when, never which entry it is. -/
theorem id_of_claimOne {drops : Bool} {s : StreamKey γ φ} {c : γ} {ids : Finset ℕ} {since : ℤ}
    {p q : PendingEntry γ} (h : s.claimOne drops c ids since p = some q) : q.id = p.id := by
  rw [claimOne] at h
  split at h
  · split at h
    · cases h
    · exact (Option.some.inj h) ▸ rfl
  · exact (Option.some.inj h) ▸ rfl

/-- A step that keeps identifiers or drops entries leaves a sublist of the identifiers. -/
theorem filterMap_sublist {f : PendingEntry γ → Option (PendingEntry γ)}
    (hf : ∀ p q, f p = some q → q.id = p.id) (ps : List (PendingEntry γ)) :
    ((ps.filterMap f).map PendingEntry.id).Sublist (ps.map PendingEntry.id) := by
  induction ps with
  | nil => exact .refl _
  | cons p ps ih =>
    rw [List.filterMap_cons]
    split
    · exact ih.cons _
    · rename_i q hq
      rw [List.map_cons, List.map_cons, hf p q hq]
      exact ih.cons_cons _

/-- `XCLAIM` with a minimal idle time of zero and without `FORCE`: pending entries change hands. -/
def claim [DecidableEq γ] (drops : Bool) (s : StreamKey γ φ) (c : γ) (ids : Finset ℕ)
    (since now : ℤ) : StreamKey γ φ :=
  match hg : s.group with
  | none => s
  | some g => s.withPending g hg (g.pending.filterMap (s.claimOne drops c ids since))
      (filterMap_sublist (fun _ _ => id_of_claimOne) _) (g.seen c now)

/-- `XACK` of one entry, by anybody. -/
def ack (s : StreamKey γ φ) (id : ℕ) : StreamKey γ φ :=
  match hg : s.group with
  | none => s
  | some g => s.withPending g hg (g.pending.filter (·.id ≠ id)) (List.filter_sublist.map _)
      g.consumers

/-- `XINFO CONSUMERS`. -/
def infoConsumers [DecidableEq γ] (s : StreamKey γ φ) (now : ℤ) : Option (List (ConsumerInfo γ)) :=
  s.group.map fun g => g.consumers.map fun (c, seen) =>
    ⟨c, (g.pending.filter (·.consumer = c)).length, now - seen⟩

/-- `XGROUP DELCONSUMER` discards the pending entries of the consumer. -/
def delConsumer [DecidableEq γ] (s : StreamKey γ φ) (c : γ) : StreamKey γ φ :=
  match hg : s.group with
  | none => s
  | some g => s.withPending g hg (g.pending.filter (·.consumer ≠ c)) (List.filter_sublist.map _)
      (g.consumers.filter (·.1 ≠ c))

/-! ## What the commands do to an identifier -/

section Lemmas

variable {s s' : StreamKey γ φ} {id : ℕ}

/-- The identifiers in the pending list of a group that exists. -/
theorem pendingIds_of_group {g : ConsumerGroup γ} (h : s.group = some g) :
    s.pendingIds = g.pending.map PendingEntry.id := by
  rw [pendingIds, h]

/-- The read position of a group that exists. -/
theorem lastDelivered_of_group {g : ConsumerGroup γ} (h : s.group = some g) :
    s.lastDelivered = g.lastDelivered := by
  rw [lastDelivered, h]

/-- Only delivered entries are pending. -/
theorem le_lastDelivered (h : id ∈ s.pendingIds) : id ≤ s.lastDelivered := by
  cases hg : s.group with
  | none => simp [pendingIds, hg] at h
  | some g =>
    rw [pendingIds_of_group hg] at h
    obtain ⟨p, hp, rfl⟩ := List.mem_map.mp h
    exact lastDelivered_of_group hg ▸ g.le p hp

/-- Nothing is delivered that has not been appended. -/
theorem lastDelivered_le_lastId (s : StreamKey γ φ) : s.lastDelivered ≤ s.lastId := by
  cases hg : s.group with
  | none => simp [lastDelivered, hg]
  | some g => exact lastDelivered_of_group hg ▸ s.delivered_le g hg

/-- The pending list is in the order of the stream. -/
theorem sorted_pendingIds (s : StreamKey γ φ) : s.pendingIds.Pairwise (· < ·) := by
  cases hg : s.group with
  | none => simp [pendingIds, hg]
  | some g =>
    rw [pendingIds_of_group hg]
    exact List.pairwise_map.mpr g.sorted

/-- No entry is pending twice, so it has one consumer. -/
theorem nodup_pendingIds (s : StreamKey γ φ) : s.pendingIds.Nodup :=
  s.sorted_pendingIds.imp fun h => h.ne

/-- An identifier belongs to one entry. -/
theorem eq_of_id_eq {e f : StreamEntry φ} (he : e ∈ s.entries) (hf : f ∈ s.entries)
    (h : e.id = f.id) : e = f := by
  have hnodup : (s.entries.map StreamEntry.id).Nodup :=
    (List.pairwise_map.mpr s.sorted).imp fun h => h.ne
  exact List.inj_on_of_nodup_map hnodup he hf h

/-- What is read of an identifier is what was appended under it. -/
theorem fieldsOf_eq_some {fields : φ} : s.fieldsOf id = some fields ↔ ⟨id, fields⟩ ∈ s.entries := by
  rw [fieldsOf, Option.map_eq_some_iff]
  constructor
  · rintro ⟨e, he, rfl⟩
    have hid : e.id = id := by simpa using List.find?_some he
    exact hid ▸ List.mem_of_find?_eq_some he
  · intro h
    cases hf : s.entries.find? (·.id = id) with
    | none => simpa using List.find?_eq_none.mp hf _ h
    -- the search finds an entry with this identifier, and there is only one
    | some e =>
      have hid : e.id = id := by simpa using List.find?_some hf
      rw [eq_of_id_eq (List.mem_of_find?_eq_some hf) h hid]
      exact ⟨_, rfl, rfl⟩

/-- A deletion leaves what is stored under other identifiers. -/
theorem isSome_fieldsOf_del {id' : ℕ} (h : (s.fieldsOf id).isSome) (hne : id ≠ id') :
    ((s.del id').fieldsOf id).isSome := by
  obtain ⟨fields, hfields⟩ := Option.isSome_iff_exists.mp h
  rw [fieldsOf_eq_some] at hfields
  refine Option.isSome_iff_exists.mpr ⟨fields, fieldsOf_eq_some.mpr ?_⟩
  exact List.mem_filter.mpr ⟨hfields, by simpa using hne⟩

/-- Nothing is read of an identifier whose entry is gone. -/
theorem fieldsOf_eq_none : s.fieldsOf id = none ↔ ∀ e ∈ s.entries, e.id ≠ id := by
  simp [fieldsOf]

/-- The identifiers of a pending list that was put in place. -/
@[simp] theorem pendingIds_withPending {g : ConsumerGroup γ} {hg : s.group = some g}
    {ps : List (PendingEntry γ)}
    {h : (ps.map PendingEntry.id).Sublist (g.pending.map PendingEntry.id)} {cs : List (γ × ℤ)} :
    (s.withPending g hg ps h cs).pendingIds = ps.map PendingEntry.id :=
  rfl

/-- Acknowledging and claiming do not move the read position. -/
@[simp] theorem lastDelivered_withPending {g : ConsumerGroup γ} {hg : s.group = some g}
    {ps : List (PendingEntry γ)}
    {h : (ps.map PendingEntry.id).Sublist (g.pending.map PendingEntry.id)} {cs : List (γ × ℤ)} :
    (s.withPending g hg ps h cs).lastDelivered = s.lastDelivered :=
  (lastDelivered_of_group hg).symm

/-- `s'` has the entries and the read position of `s`, and no more pending entries. -/
structure Shrinks (s s' : StreamKey γ φ) : Prop where
  entries : s'.entries = s.entries
  lastId : s'.lastId = s.lastId
  lastDelivered : s'.lastDelivered = s.lastDelivered
  pending : s'.pendingIds.Sublist s.pendingIds

/-- A command without effect. -/
theorem Shrinks.refl (s : StreamKey γ φ) : s.Shrinks s := ⟨rfl, rfl, rfl, .refl _⟩

/-- Whatever replaces the pending list by one with fewer identifiers only shrinks it. The commands
that never deliver are instances. -/
theorem shrinks_withPending {g : ConsumerGroup γ} {hg : s.group = some g}
    {ps : List (PendingEntry γ)}
    {h : (ps.map PendingEntry.id).Sublist (g.pending.map PendingEntry.id)} {cs : List (γ × ℤ)} :
    s.Shrinks (s.withPending g hg ps h cs) :=
  ⟨rfl, rfl, lastDelivered_withPending, (pendingIds_of_group hg).symm ▸ h⟩

/-- Delivery skips nothing. -/
theorem mem_unread {count : ℕ} {e : StreamEntry φ} (he : e ∈ s.entries)
    (hnew : s.lastDelivered < e.id) (hle : e.id ≤ lastIdOf s.lastDelivered (s.unread count)) :
    e ∈ s.unread count := by
  have hmem : e ∈ s.entries.filter (s.lastDelivered < ·.id) := by simp [he, hnew]
  rw [← List.take_append_drop count (s.entries.filter (s.lastDelivered < ·.id))] at hmem
  rcases List.mem_append.mp hmem with h | hdrop
  · exact h
  -- behind what was taken everything is newer, so the read position has not reached it
  · have hsorted := s.sorted.filter (s.lastDelivered < ·.id)
    rw [← List.take_append_drop count (s.entries.filter _), List.pairwise_append] at hsorted
    exfalso
    rcases lastIdOf_eq s.lastDelivered (s.unread count) with h | ⟨f, hf, h⟩
    · omega
    · have hlt : f.id < e.id := hsorted.2.2 f hf e hdrop
      omega

/-- What `XREADGROUP` with `>` does: the entries it answers are pending from then on, and the read
position is at the last of them. -/
theorem readNew_eq_some [DecidableEq γ] {c : γ} {count : ℕ} {now : ℤ} {es : List (StreamEntry φ)}
    (h : s.readNew c count now = some (s', es)) :
    es = s.unread count ∧ s'.entries = s.entries ∧ s'.lastId = s.lastId ∧
      s'.pendingIds = s.pendingIds ++ es.map StreamEntry.id ∧
      s'.lastDelivered = lastIdOf s.lastDelivered es := by
  rw [readNew] at h
  split at h
  · cases h
  · rename_i g hg
    obtain ⟨rfl, rfl⟩ := Prod.mk.inj (Option.some.inj h)
    refine ⟨rfl, rfl, rfl, ?_, ?_⟩
    · rw [pendingIds_of_group hg]
      simp [pendingIds, ConsumerGroup.deliver, Function.comp_def]
    · rw [lastDelivered_of_group hg]
      rfl

/-- What `XREADGROUP` with `0` does: it answers pending entries, each with what is stored of it,
and moves nothing. -/
theorem readOwn_eq_some [DecidableEq γ] {c : γ} {count : ℕ} {now : ℤ} {es : List (ℕ × Option φ)}
    (h : s.readOwn c count now = some (s', es)) :
    s.Shrinks s' ∧ s'.pendingIds = s.pendingIds ∧
      ∃ ids : List ℕ, ids.Sublist s.pendingIds ∧ es = ids.map fun id => (id, s.fieldsOf id) := by
  rw [readOwn] at h
  split at h
  · cases h
  · rename_i g hg
    obtain ⟨rfl, rfl⟩ := Prod.mk.inj (Option.some.inj h)
    refine ⟨shrinks_withPending, (pendingIds_of_group hg).symm,
      ((g.pending.filter (·.consumer = c)).take count).map PendingEntry.id, ?_, ?_⟩
    · rw [pendingIds_of_group hg]
      exact ((List.take_sublist _ _).trans List.filter_sublist).map _
    · rw [List.map_map]
      rfl

/-- What `XAUTOCLAIM` does: it answers pending entries, and one that is still stored stays
pending. -/
theorem autoclaim_eq_some [DecidableEq γ] {drops : Bool} {c : γ} {minIdle now : ℤ}
    {start count cursor : ℕ} {es : List (Option ℕ × Option φ)}
    (h : autoclaim drops s c minIdle start count now = some (s', es, cursor)) :
    s.Shrinks s' ∧ (∀ id ∈ s.pendingIds, (s.fieldsOf id).isSome → id ∈ s'.pendingIds) ∧
      ∃ ids : List ℕ, ids.Sublist s.pendingIds ∧ es = ids.map s.report := by
  rw [autoclaim] at h
  split at h
  · cases h
  · rename_i g hg
    obtain ⟨rfl, hreply⟩ := Prod.mk.inj (Option.some.inj h)
    obtain ⟨rfl, -⟩ := Prod.mk.inj hreply
    refine ⟨shrinks_withPending, ?_, _, ?_, rfl⟩
    · intro id hid hlive
      rw [pendingIds_of_group hg, ← List.takeWhile_append_dropWhile (p := (·.id < start))
        (l := g.pending), List.map_append] at hid
      rw [pendingIds_withPending, List.map_append]
      -- before the cursor nothing is looked at; behind it the scan drops only deleted entries
      rcases List.mem_append.mp hid with hid | hid
      · exact List.mem_append_left _ hid
      · exact List.mem_append_right _ (mem_scan hid hlive)
    · rw [pendingIds_of_group hg]
      exact scan_sublist.2.trans ((List.dropWhile_sublist _).map _)

/-- A claim adds nothing to the pending list. -/
theorem shrinks_claim [DecidableEq γ] {drops : Bool} {c : γ} {ids : Finset ℕ} {since now : ℤ} :
    s.Shrinks (s.claim drops c ids since now) := by
  rw [claim]
  split
  · exact .refl s
  · exact shrinks_withPending

/-- A claim drops only deleted entries. -/
theorem mem_pendingIds_claim [DecidableEq γ] {drops : Bool} {c : γ} {ids : Finset ℕ} {since now : ℤ}
    (hid : id ∈ s.pendingIds) (hlive : (s.fieldsOf id).isSome) :
    id ∈ (s.claim drops c ids since now).pendingIds := by
  rw [claim]
  split
  · exact hid
  · rename_i g hg
    rw [pendingIds_of_group hg] at hid
    obtain ⟨p, hp, rfl⟩ := List.mem_map.mp hid
    rw [pendingIds_withPending]
    have hkept : ∃ q, s.claimOne drops c ids since p = some q := by
      rw [claimOne]
      split
      · simp [hlive]
      · exact ⟨p, rfl⟩
    obtain ⟨q, hq⟩ := hkept
    exact List.mem_map.mpr ⟨q, List.mem_filterMap.mpr ⟨p, hp, hq⟩, id_of_claimOne hq⟩

/-- An acknowledgement adds nothing to it. -/
theorem shrinks_ack {id' : ℕ} : s.Shrinks (s.ack id') := by
  rw [ack]
  split
  · exact .refl s
  · exact shrinks_withPending

/-- An acknowledgement removes just its entry, whoever's it is. -/
@[simp] theorem mem_pendingIds_ack {id' : ℕ} :
    id ∈ (s.ack id').pendingIds ↔ id ∈ s.pendingIds ∧ id ≠ id' := by
  rw [ack]
  split
  · rename_i hg
    simp [pendingIds, hg]
  · rename_i g hg
    rw [pendingIds_withPending, pendingIds_of_group hg]
    simp only [List.mem_map, List.mem_filter, decide_not, Bool.not_eq_eq_eq_not, Bool.not_true,
      decide_eq_false_iff_not]
    constructor
    · rintro ⟨p, ⟨hp, hne⟩, rfl⟩
      exact ⟨⟨p, hp, rfl⟩, hne⟩
    · rintro ⟨⟨p, hp, rfl⟩, hne⟩
      exact ⟨p, ⟨hp, hne⟩, rfl⟩

/-- The consumer has pending entries. -/
def HasPending (s : StreamKey γ φ) (c : γ) : Prop :=
  ∃ g, s.group = some g ∧ ∃ p ∈ g.pending, p.consumer = c

/-- The deletion of a consumer adds nothing to it, but may discard what somebody still works on. -/
theorem shrinks_delConsumer [DecidableEq γ] {c : γ} : s.Shrinks (s.delConsumer c) := by
  rw [delConsumer]
  split
  · exact .refl s
  · exact shrinks_withPending

/-- Deleting a consumer that has nothing pending loses nothing. -/
theorem pendingIds_delConsumer [DecidableEq γ] {c : γ} (h : ¬ s.HasPending c) :
    (s.delConsumer c).pendingIds = s.pendingIds := by
  rw [delConsumer]
  split
  · rfl
  · rename_i g hg
    rw [pendingIds_withPending, pendingIds_of_group hg, List.filter_eq_self.mpr]
    intro p hp
    simpa using fun hc => h ⟨g, hg, p, hp, hc⟩

/-- Creating the group again loses nothing that is pending. -/
@[simp] theorem pendingIds_createGroup : s.createGroup.pendingIds = s.pendingIds := by
  cases hg : s.group <;> simp [pendingIds, createGroup, hg, ConsumerGroup.empty]

/-- Creating the group again moves nothing back. -/
@[simp] theorem lastDelivered_createGroup : s.createGroup.lastDelivered = s.lastDelivered := by
  cases hg : s.group <;> simp [lastDelivered, createGroup, hg, ConsumerGroup.empty]

/-- A new group has an empty pending list and reads from `0`, as if there had been one. -/
theorem shrinks_createGroup : s.Shrinks s.createGroup :=
  ⟨rfl, rfl, lastDelivered_createGroup, by rw [pendingIds_createGroup]⟩

/-- `s'` comes after `s` without an append: entries may have gone, and only entries that had not
been delivered are newly pending. -/
structure Advances (s s' : StreamKey γ φ) : Prop where
  lastId : s'.lastId = s.lastId
  entries : ∀ e ∈ s'.entries, e ∈ s.entries
  lastDelivered : s.lastDelivered ≤ s'.lastDelivered
  pending : ∀ id ∈ s'.pendingIds, id ∈ s.pendingIds ∨ s.lastDelivered < id

/-- A shrinking command only moves forward. -/
theorem Shrinks.advances (h : s.Shrinks s') : s.Advances s' :=
  ⟨h.lastId, fun _ he => h.entries ▸ he, h.lastDelivered.ge,
    fun _ hp => Or.inl (h.pending.subset hp)⟩

/-- A command without effect. -/
theorem Advances.refl (s : StreamKey γ φ) : s.Advances s := (Shrinks.refl s).advances

/-- A deletion after the command. -/
theorem Advances.del (h : s.Advances s') {id' : ℕ} : s.Advances (s'.del id') :=
  ⟨h.lastId, fun e he => h.entries e (List.mem_of_mem_filter he), h.lastDelivered, h.pending⟩

/-- A delivery adds entries to the pending list, all of them newer than the read position. -/
theorem advances_readNew [DecidableEq γ] {c : γ} {count : ℕ} {now : ℤ}
    {es : List (StreamEntry φ)} (h : s.readNew c count now = some (s', es)) : s.Advances s' := by
  obtain ⟨rfl, hentries, hlast, hpending, hdelivered⟩ := readNew_eq_some h
  refine ⟨hlast, fun _ he => hentries ▸ he, ?_, fun id hid => ?_⟩
  · rw [hdelivered]
    exact (le_lastIdOf (s.sorted_unread count) fun e he => (mem_of_mem_unread he).2).1
  · rw [hpending] at hid
    refine (List.mem_append.mp hid).imp_right fun hnew => ?_
    obtain ⟨e, he, rfl⟩ := List.mem_map.mp hnew
    exact (mem_of_mem_unread he).2

end Lemmas

/-! ## One pending entry -/

/-- The entry is stored and pending, and `P` holds of its place in the pending list. -/
structure Pends (s : StreamKey γ φ) (id : ℕ) (P : PendingEntry γ → Prop) : Prop where
  stored : ∃ fields, ⟨id, fields⟩ ∈ s.entries
  pending : ∃ g, s.group = some g ∧ ∃ p ∈ g.pending, p.id = id ∧ P p

/-- The pending entries before the entry `id`. -/
def pendingBefore (s : StreamKey γ φ) (id : ℕ) : List (PendingEntry γ) :=
  match s.group with
  | none => []
  | some g => g.pending.filter (·.id < id)

section Pends

variable {s s' : StreamKey γ φ} {id : ℕ} {P Q : PendingEntry γ → Prop}

/-- A weaker `P` holds as well. -/
theorem Pends.mono (h : s.Pends id P) (hPQ : ∀ p, P p → Q p) : s.Pends id Q := by
  obtain ⟨g, hg, p, hp, hid, hP⟩ := h.pending
  exact ⟨h.stored, g, hg, p, hp, hid, hPQ p hP⟩

/-- A stored entry whose identifier is pending has some place in the list. -/
theorem pends_of_mem {fields : φ} (hstored : ⟨id, fields⟩ ∈ s.entries) (hid : id ∈ s.pendingIds) :
    s.Pends id fun _ => True := by
  refine ⟨⟨fields, hstored⟩, ?_⟩
  cases hg : s.group with
  | none => simp [pendingIds, hg] at hid
  | some g =>
    rw [pendingIds_of_group hg] at hid
    obtain ⟨p, hp, rfl⟩ := List.mem_map.mp hid
    exact ⟨g, rfl, p, hp, rfl, trivial⟩

/-- Its identifier is in the pending list. -/
theorem Pends.mem_pendingIds (h : s.Pends id P) : id ∈ s.pendingIds := by
  obtain ⟨g, hg, p, hp, hid, -⟩ := h.pending
  rw [pendingIds_of_group hg]
  exact List.mem_map.mpr ⟨p, hp, hid⟩

/-- There is something to read of it. -/
theorem Pends.live (h : s.Pends id P) : (s.fieldsOf id).isSome := by
  obtain ⟨fields, hfields⟩ := h.stored
  rw [fieldsOf_eq_some.mpr hfields]
  rfl

/-- Appends leave it in its place. -/
theorem Pends.add {id' : ℕ} {fields : φ} (h : s.Pends id P) (hnew : s.lastId < id') :
    (s.add id' fields hnew).Pends id P := by
  obtain ⟨fields', hstored⟩ := h.stored
  exact ⟨⟨fields', List.mem_append_left _ hstored⟩, h.pending⟩

/-- So does creating the group again. -/
theorem Pends.createGroup (h : s.Pends id P) : s.createGroup.Pends id P := by
  obtain ⟨g, hg, hp⟩ := h.pending
  refine ⟨h.stored, g, ?_, hp⟩
  show some (s.group.getD .empty) = some g
  rw [hg]
  rfl

/-- So do acknowledgements of others. -/
theorem Pends.ack {id' : ℕ} (h : s.Pends id P) (hne : id' ≠ id) : (s.ack id').Pends id P := by
  obtain ⟨g, hg, p, hp, rfl, hP⟩ := h.pending
  rw [StreamKey.ack]
  split
  · exact h
  · rename_i g' hg'
    obtain rfl := Option.some.inj (hg.symm.trans hg')
    refine ⟨h.stored, _, rfl, p, List.mem_filter.mpr ⟨hp, ?_⟩, rfl, hP⟩
    simpa using hne.symm

/-- So do deletions of others. -/
theorem Pends.del {id' : ℕ} (h : s.Pends id P) (hne : id' ≠ id) : (s.del id').Pends id P := by
  obtain ⟨fields, hstored⟩ := h.stored
  refine ⟨⟨fields, List.mem_filter.mpr ⟨hstored, ?_⟩⟩, h.pending⟩
  simpa using hne.symm

variable [DecidableEq γ] {c : γ} {now : ℤ}

/-- A claim gives the entry the place of the claim, if it names it. -/
theorem Pends.claim {drops : Bool} {ids : Finset ℕ} {since : ℤ} (h : s.Pends id P)
    (hkept : id ∉ ids → ∀ p, P p → Q p) (hclaimed : id ∈ ids → Q ⟨id, c, since⟩) :
    (s.claim drops c ids since now).Pends id Q := by
  obtain ⟨g, hg, p, hp, rfl, hP⟩ := h.pending
  have hlive := h.live
  rw [StreamKey.claim]
  split
  · rename_i hnone
    exact absurd (hg.symm.trans hnone) (by simp)
  · rename_i g' hg'
    obtain rfl := Option.some.inj (hg.symm.trans hg')
    by_cases hmem : p.id ∈ ids
    · refine ⟨h.stored, _, rfl, ⟨p.id, c, since⟩, List.mem_filterMap.mpr ⟨p, hp, ?_⟩, rfl,
        hclaimed hmem⟩
      rw [claimOne, if_pos hmem]
      simp [hlive]
    · refine ⟨h.stored, _, rfl, p, List.mem_filterMap.mpr ⟨p, hp, ?_⟩, rfl, hkept hmem p hP⟩
      rw [claimOne, if_neg hmem]

/-- So does the deletion of a consumer that does not have it. -/
theorem Pends.delConsumer (h : s.Pends id P) (hother : ∀ p, P p → p.consumer ≠ c) :
    (s.delConsumer c).Pends id P := by
  obtain ⟨g, hg, p, hp, hid, hP⟩ := h.pending
  rw [StreamKey.delConsumer]
  split
  · exact h
  · rename_i g' hg'
    obtain rfl := Option.some.inj (hg.symm.trans hg')
    refine ⟨h.stored, _, rfl, p, List.mem_filter.mpr ⟨hp, ?_⟩, hid, hP⟩
    simpa using hother p hP

/-- So do deliveries, which go behind it. -/
theorem Pends.readNew {count : ℕ} {es : List (StreamEntry φ)} (h : s.Pends id P)
    (hread : s.readNew c count now = some (s', es)) : s'.Pends id P := by
  obtain ⟨g, hg, p, hp, hid, hP⟩ := h.pending
  rw [StreamKey.readNew] at hread
  split at hread
  · cases hread
  · rename_i g' hg'
    obtain rfl := Option.some.inj (hg.symm.trans hg')
    obtain ⟨rfl, -⟩ := Prod.mk.inj (Option.some.inj hread)
    exact ⟨h.stored, _, rfl, p, List.mem_append_left _ hp, hid, hP⟩

/-- So do reads of what is pending. -/
theorem Pends.readOwn {count : ℕ} {es : List (ℕ × Option φ)} (h : s.Pends id P)
    (hread : s.readOwn c count now = some (s', es)) : s'.Pends id P := by
  obtain ⟨g, hg, p, hp, hid, hP⟩ := h.pending
  rw [StreamKey.readOwn] at hread
  split at hread
  · cases hread
  · rename_i g' hg'
    obtain rfl := Option.some.inj (hg.symm.trans hg')
    obtain ⟨rfl, -⟩ := Prod.mk.inj (Option.some.inj hread)
    exact ⟨h.stored, _, rfl, p, hp, hid, hP⟩

omit [DecidableEq γ] in
/-- What is before an entry is part of the list. -/
theorem pendingBefore_sublist :
    ((s.pendingBefore id).map PendingEntry.id).Sublist s.pendingIds := by
  rw [pendingBefore, pendingIds]
  split
  · exact .refl _
  · exact List.filter_sublist.map _

omit [DecidableEq γ] in
/-- The pending list around the entry. -/
theorem Pends.split (h : s.Pends id P) : ∃ g p post, s.group = some g ∧ p.id = id ∧ P p ∧
    g.pending = s.pendingBefore id ++ p :: post := by
  obtain ⟨g, hg, p, hp, rfl, hP⟩ := h.pending
  obtain ⟨pre, post, heq⟩ := List.append_of_mem hp
  refine ⟨g, p, post, hg, rfl, hP, ?_⟩
  have hsorted := g.sorted
  rw [heq, List.pairwise_append] at hsorted
  obtain ⟨-, hafter, hbefore⟩ := hsorted
  -- the list ascends, so the entries before `p` are those with smaller identifiers
  have hpre : pre.filter (·.id < p.id) = pre := by
    refine List.filter_eq_self.mpr fun q hq => ?_
    simpa using hbefore q hq p List.mem_cons_self
  have hpost : post.filter (·.id < p.id) = [] := by
    refine List.filter_eq_nil_iff.mpr fun q hq => ?_
    simpa using (List.pairwise_cons.mp hafter).1 q hq |>.le
  rw [pendingBefore, hg]
  simp [heq, hpre, hpost]

/-- What `XAUTOCLAIM` does from the beginning of the pending list. -/
theorem autoclaim_zero {drops : Bool} {minIdle : ℤ} {count cursor : ℕ}
    {es : List (Option ℕ × Option φ)} {g : ConsumerGroup γ} (hg : s.group = some g)
    (h : autoclaim drops s c minIdle 0 count now = some (s', es, cursor)) :
    s'.entries = s.entries ∧
      es = (scan (fun id => (s.fieldsOf id).isSome) drops c minIdle now (10 * count) count
        g.pending).claimed.map s.report ∧
      ∃ g', s'.group = some g' ∧
        g'.pending = (scan (fun id => (s.fieldsOf id).isSome) drops c minIdle now (10 * count) count
          g.pending).pending := by
  have htake : g.pending.takeWhile (·.id < 0) = [] := by
    cases g.pending <;> simp
  have hdrop : g.pending.dropWhile (·.id < 0) = g.pending := by
    cases g.pending <;> simp
  rw [autoclaim] at h
  split at h
  · cases h
  · rename_i g' hg'
    obtain rfl := Option.some.inj (hg.symm.trans hg')
    obtain ⟨rfl, hreply⟩ := Prod.mk.inj (Option.some.inj h)
    obtain ⟨rfl, -⟩ := Prod.mk.inj hreply
    refine ⟨rfl, by rw [hdrop], _, rfl, ?_⟩
    show g.pending.takeWhile _ ++ _ = _
    rw [htake, hdrop, List.nil_append]

/-- With a group there is an answer. -/
theorem autoclaim_ne_none {drops : Bool} {minIdle : ℤ} {start count : ℕ} {g : ConsumerGroup γ}
    (hg : s.group = some g) : autoclaim drops s c minIdle start count now ≠ none := by
  rw [autoclaim]
  split
  · rename_i hnone
    exact absurd (hg.symm.trans hnone) (by simp)
  · simp

/-- What `XREADGROUP` with `0` reports. -/
theorem readOwn_of_group {count : ℕ} {g : ConsumerGroup γ} (hg : s.group = some g) :
    ∃ s', s.readOwn c count now = some (s',
      ((g.pending.filter (·.consumer = c)).take count).map fun p => (p.id, s.fieldsOf p.id)) := by
  rw [StreamKey.readOwn]
  split
  · rename_i hnone
    exact absurd (hg.symm.trans hnone) (by simp)
  · rename_i g' hg'
    obtain rfl := Option.some.inj (hg.symm.trans hg')
    exact ⟨_, rfl⟩

end Pends

/-! ## Places in the pending list -/

/-- The pending list. -/
def places (s : StreamKey γ φ) : List (PendingEntry γ) :=
  match s.group with
  | none => []
  | some g => g.pending

section Places

variable {s s' : StreamKey γ φ} {c : γ} {now floor : ℤ} {p : PendingEntry γ}

/-- The pending list of a group that exists. -/
theorem places_of_group {g : ConsumerGroup γ} (h : s.group = some g) : s.places = g.pending := by
  rw [places, h]

/-- The pending list that was put in place. -/
@[simp] theorem places_withPending {g : ConsumerGroup γ} {hg : s.group = some g}
    {pending : List (PendingEntry γ)}
    {h : (pending.map PendingEntry.id).Sublist (g.pending.map PendingEntry.id)}
    {consumers : List (γ × ℤ)} : (s.withPending g hg pending h consumers).places = pending := rfl

/-- Every place of `s'` is one of `s`, or is not older than `floor`. -/
def Renews (floor : ℤ) (s s' : StreamKey γ φ) : Prop :=
  ∀ p ∈ s'.places, p ∈ s.places ∨ floor ≤ p.since

/-- A command without effect. -/
theorem Renews.refl (floor : ℤ) (s : StreamKey γ φ) : Renews floor s s := fun _ hp => Or.inl hp

/-- A group that is created has no places, one that exists keeps its own. -/
theorem renews_createGroup : Renews floor s s.createGroup := by
  intro p hp
  cases hg : s.group with
  | none => simp [places, StreamKey.createGroup, hg, ConsumerGroup.empty] at hp
  | some g =>
    left
    rw [places_of_group hg]
    simpa [places, StreamKey.createGroup, hg] using hp

/-- An acknowledgement only removes. -/
theorem renews_ack {id : ℕ} : Renews floor s (s.ack id) := by
  rw [StreamKey.ack]
  split
  · exact .refl floor s
  · rename_i g hg
    intro p hp
    exact Or.inl (places_of_group hg ▸ List.mem_of_mem_filter hp)

/-- A deletion does not look at the pending list. -/
theorem Renews.del {id : ℕ} (h : Renews floor s s') : Renews floor s (s'.del id) := h

variable [DecidableEq γ]

/-- The deletion of a consumer only removes. -/
theorem renews_delConsumer : Renews floor s (s.delConsumer c) := by
  rw [StreamKey.delConsumer]
  split
  · exact .refl floor s
  · rename_i g hg
    intro p hp
    exact Or.inl (places_of_group hg ▸ List.mem_of_mem_filter hp)

/-- A read of what is pending renews nothing: the idle time counts from the last claim or
delivery. -/
theorem renews_readOwn {count : ℕ} {es : List (ℕ × Option φ)}
    (h : s.readOwn c count now = some (s', es)) : Renews floor s s' := by
  rw [StreamKey.readOwn] at h
  split at h
  · cases h
  · rename_i g hg
    obtain ⟨rfl, -⟩ := Prod.mk.inj (Option.some.inj h)
    intro p hp
    exact Or.inl (places_of_group hg ▸ hp)

/-- A delivery adds places of now. -/
theorem renews_readNew {count : ℕ} {es : List (StreamEntry φ)}
    (h : s.readNew c count now = some (s', es)) : Renews now s s' := by
  rw [StreamKey.readNew] at h
  split at h
  · cases h
  · rename_i g hg
    obtain ⟨rfl, -⟩ := Prod.mk.inj (Option.some.inj h)
    intro p hp
    rcases List.mem_append.mp hp with hp | hp
    · exact Or.inl (places_of_group hg ▸ hp)
    · obtain ⟨e, -, rfl⟩ := List.mem_map.mp hp
      exact Or.inr le_rfl

/-- A claim gives what it names the time it was told, whatever that is, and leaves the rest. -/
theorem renews_claim {drops : Bool} {ids : Finset ℕ} {since : ℤ} :
    Renews since s (s.claim drops c ids since now) := by
  rw [StreamKey.claim]
  split
  · exact .refl since s
  · rename_i g hg
    intro p hp
    obtain ⟨q, hq, hclaim⟩ := List.mem_filterMap.mp hp
    rw [claimOne] at hclaim
    -- named and still stored, named and dropped, or not named
    split at hclaim
    · split at hclaim
      · cases hclaim
      · obtain rfl := Option.some.inj hclaim
        exact Or.inr le_rfl
    · obtain rfl := Option.some.inj hclaim
      exact Or.inl (places_of_group hg ▸ hq)

omit [DecidableEq γ] in
/-- A scan renews what it claims. -/
theorem renews_scan {live : ℕ → Bool} {drops : Bool} {minIdle : ℤ} {attempts count : ℕ}
    {ps : List (PendingEntry γ)}
    (hp : p ∈ (scan live drops c minIdle now attempts count ps).pending) :
    p ∈ ps ∨ now ≤ p.since := by
  fun_induction scan with
  | case1 => exact Or.inl hp
  | case2 => exact Or.inl hp
  | case3 => exact Or.inl hp
  | case4 attempts count q ps hdrop ih => exact (ih hp).imp_left (List.mem_cons_of_mem q)
  | case5 attempts count q ps hdrop hfresh r ih =>
    rcases List.mem_cons.mp hp with rfl | hp
    · exact Or.inl List.mem_cons_self
    · exact (ih hp).imp_left (List.mem_cons_of_mem q)
  | case6 attempts count q ps hdrop hfresh r ih =>
    rcases List.mem_cons.mp hp with rfl | hp
    · exact Or.inr le_rfl
    · exact (ih hp).imp_left (List.mem_cons_of_mem q)

omit [DecidableEq γ] in
/-- Behind the place where a scan stopped nothing has been idle for `minIdle`. -/
theorem since_scan {live : ℕ → Bool} {drops : Bool} {minIdle : ℤ} {attempts count : ℕ}
    {ps : List (PendingEntry γ)} (hminIdle : 0 ≤ minIdle)
    (hsorted : ps.Pairwise fun p q => p.id < q.id) (hpos : ∀ q ∈ ps, 0 < q.id)
    (hp : p ∈ (scan live drops c minIdle now attempts count ps).pending)
    (hbehind : (scan live drops c minIdle now attempts count ps).next = 0 ∨
      p.id < (scan live drops c minIdle now attempts count ps).next) : now - minIdle ≤ p.since := by
  -- where it stops at `q`, everything left is at `q` or later
  have hstopped : ∀ (q : PendingEntry γ) (qs : List (PendingEntry γ)),
      (q :: qs).Pairwise (fun p q => p.id < q.id) → (∀ q' ∈ q :: qs, 0 < q'.id) → p ∈ q :: qs →
        ¬ (q.id = 0 ∨ p.id < q.id) := by
    rintro q qs hsorted hpos hp (hzero | hlt)
    · exact (hpos q List.mem_cons_self).ne' hzero
    · rcases List.mem_cons.mp hp with rfl | hp
      · exact lt_irrefl _ hlt
      · exact lt_asymm hlt ((List.pairwise_cons.mp hsorted).1 p hp)
  fun_induction scan with
  | case1 => cases hp
  | case2 count q ps => exact absurd hbehind (hstopped q ps hsorted hpos hp)
  | case3 attempts q ps => exact absurd hbehind (hstopped q ps hsorted hpos hp)
  | case4 attempts count q ps hdrop ih =>
    exact ih (List.pairwise_cons.mp hsorted).2 (fun q' hq' => hpos q' (List.mem_cons_of_mem q hq'))
      hp hbehind
  | case5 attempts count q ps hdrop hfresh r ih =>
    rcases List.mem_cons.mp hp with rfl | hp
    · omega
    · exact ih (List.pairwise_cons.mp hsorted).2
        (fun q' hq' => hpos q' (List.mem_cons_of_mem q hq')) hp hbehind
  | case6 attempts count q ps hdrop hfresh r ih =>
    rcases List.mem_cons.mp hp with rfl | hp
    · show now - minIdle ≤ now
      omega
    · exact ih (List.pairwise_cons.mp hsorted).2
        (fun q' hq' => hpos q' (List.mem_cons_of_mem q hq')) hp hbehind

/-- `XAUTOCLAIM` renews what it claims and leaves the rest. -/
theorem renews_autoclaim {drops : Bool} {minIdle : ℤ} {start count cursor : ℕ}
    {es : List (Option ℕ × Option φ)}
    (h : autoclaim drops s c minIdle start count now = some (s', es, cursor)) :
    Renews now s s' := by
  rw [autoclaim] at h
  split at h
  · cases h
  · rename_i g hg
    obtain ⟨rfl, -⟩ := Prod.mk.inj (Option.some.inj h)
    intro p hp
    rw [places_of_group hg]
    rcases List.mem_append.mp hp with hp | hp
    · exact Or.inl ((List.takeWhile_sublist _).subset hp)
    · exact (renews_scan hp).imp_left fun hp => (List.dropWhile_sublist _).subset hp

/-- What a page of `XAUTOCLAIM` has passed has not been idle for `minIdle`. -/
theorem since_autoclaim {drops : Bool} {minIdle : ℤ} {start count cursor : ℕ}
    {es : List (Option ℕ × Option φ)}
    (h : autoclaim drops s c minIdle start count now = some (s', es, cursor))
    (hminIdle : 0 ≤ minIdle) (hpos : ∀ id ∈ s.pendingIds, 0 < id) (hp : p ∈ s'.places)
    (hstart : start ≤ p.id) (hbehind : cursor = 0 ∨ p.id < cursor) : now - minIdle ≤ p.since := by
  rw [autoclaim] at h
  split at h
  · cases h
  · rename_i g hg
    obtain ⟨rfl, hreply⟩ := Prod.mk.inj (Option.some.inj h)
    obtain ⟨-, rfl⟩ := Prod.mk.inj hreply
    have hdrop : (g.pending.dropWhile (·.id < start)).Sublist g.pending := List.dropWhile_sublist _
    -- a place before the cursor was not looked at, and is excluded by `hstart`
    rcases List.mem_append.mp hp with hp | hp
    · have hlt : p.id < start := by simpa using List.mem_takeWhile_imp hp
      omega
    · refine since_scan hminIdle (g.sorted.sublist hdrop) (fun q hq => hpos _ ?_) hp hbehind
      exact pendingIds_of_group hg ▸ List.mem_map_of_mem (hdrop.subset hq)

end Places

end StreamKey

end Redis
