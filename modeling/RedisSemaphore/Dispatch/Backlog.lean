import RedisSemaphore.Dispatch.Scan

/-!
# What the backlog scan returns

`_backlog` reads the oldest of the worker's own pending entries and leaves out those of the
snapshot. The read asks for a hundred more than the snapshot has, so however the snapshot's entries
lie among the others, a hundred of the others are on the page.
-/

namespace RedisSemaphore.Dispatch

open Redis

/-! ## A page and a filter -/

section Page

variable {α : Type*} {l : List α} {q : α → Bool} {n : ℕ}

/-- Among the first elements of a list, no more fail a test than in all of it. -/
theorem length_filter_take (h : l.countP (fun a => ¬ q a) ≤ n) (m : ℕ) :
    min m (l.filter q).length ≤ ((l.take (n + m)).filter q).length := by
  by_cases hall : l.length ≤ n + m
  · rw [List.take_of_length_le hall]
    exact min_le_right _ _
  · have hpage : (l.take (n + m)).length = n + m := by
      rw [List.length_take]
      omega
    have hfail : (l.take (n + m)).countP (fun a => ¬ q a) ≤ n :=
      (List.take_sublist _ _).countP_le.trans h
    rw [List.length_eq_countP_add_countP q, List.countP_eq_length_filter] at hpage
    simp only [Bool.not_eq_true] at hfail hpage
    omega

/-- A page that is longer by the number of those that fail holds the first of those that pass. -/
theorem take_filter_prefix (h : l.countP (fun a => ¬ q a) ≤ n) (m : ℕ) :
    (l.filter q).take m <+: (l.take (n + m)).filter q := by
  refine List.prefix_of_prefix_length_le (List.take_prefix _ _)
    ((List.take_prefix _ _).filter q) ?_
  rw [List.length_take]
  exact length_filter_take h m

end Page

/-! ## The answer of `XREADGROUP` -/

/-- What the client library returns: nothing, pairs of a stream and its entries (RESP2), or a
dictionary of batches for each stream (RESP3). -/
inductive Response (α : Type)
  | none
  | resp2 (streams : List (String × List α))
  | resp3 (streams : List (String × List (List α)))

/-- `_entries`. -/
def entriesOf {α : Type} : Response α → List α
  | .none => []
  | .resp2 [] => []
  | .resp2 ((_, entries) :: _) => entries
  | .resp3 [] => []
  | .resp3 ((_, batches) :: _) => batches.flatten

/-- The protocol that the client speaks. -/
inductive Protocol
  | resp2 | resp3
  deriving DecidableEq, Repr

/-- A read of one stream in either protocol. -/
def Protocol.response {α : Type} (stream : String) (entries : List α) : Protocol → Response α
  | resp2 => .resp2 [(stream, entries)]
  | resp3 => .resp3 [(stream, [entries])]

/-- `_entries` makes the same of both. -/
theorem entriesOf_response {α : Type} (protocol : Protocol) (stream : String) (entries : List α) :
    entriesOf (protocol.response stream entries) = entries := by
  cases protocol with
  | resp2 => rfl
  | resp3 => exact List.flatten_singleton

/-! ## The scan -/

variable {W : Type*} {π : Type} [DecidableEq W]

/-- `_backlog` with this snapshot of `_taken`: what it returns when the server answers in this
state. Without the group there is nothing to return. -/
def backlog (cfg : Config W π) (w : W) (protocol : Protocol) (stream : String) (s : Server W)
    (snapshot : Finset ℕ) : List Delivery :=
  match (exec cfg w s (.readOwn (snapshot.card + 100))).2 with
  | .entries es => usable snapshot (entriesOf (protocol.response stream es))
  | _ => []

/-- The worker's own pending entries, oldest first. -/
def ownPending (w : W) (s : Server W) : List (PendingEntry W) :=
  match s.stream.group with
  | none => []
  | some g => g.pending.filter (·.consumer = w)

/-- Those outside the snapshot. -/
def unseen (w : W) (s : Server W) (snapshot : Finset ℕ) : List (PendingEntry W) :=
  (ownPending w s).filter (·.id ∉ snapshot)

/-- What is reported of a pending entry. -/
def delivery (s : Server W) (p : PendingEntry W) : Delivery := (some p.id, s.stream.fieldsOf p.id)

variable {cfg : Config W π} {w : W} {s : Server W} {snapshot : Finset ℕ}

theorem sorted_ownPending (w : W) (s : Server W) :
    (ownPending w s).Pairwise fun p q => p.id < q.id := by
  unfold ownPending
  split
  · exact List.Pairwise.nil
  · rename_i g hg
    exact g.sorted.filter _

/-- The page of the scan, filtered. -/
theorem backlog_eq (protocol : Protocol) (stream : String) :
    backlog cfg w protocol stream s snapshot =
      (((ownPending w s).take (snapshot.card + 100)).filter (·.id ∉ snapshot)).map
        (delivery s) := by
  cases hg : s.stream.group with
  | none =>
    have hread : s.stream.readOwn w (snapshot.card + 100) s.now = none := by
      rw [StreamKey.readOwn]
      split
      · rfl
      · rename_i g hg'
        cases hg.symm.trans hg'
    have hreply : (exec cfg w s (.readOwn (snapshot.card + 100))).2 = .noGroup := by
      simp only [exec, hread]
    simp [backlog, hreply, ownPending, hg]
  | some g =>
    obtain ⟨stream', hread⟩ : ∃ stream', s.stream.readOwn w (snapshot.card + 100) s.now =
        some (stream', ((g.pending.filter (·.consumer = w)).take (snapshot.card + 100)).map
          fun p => (p.id, s.stream.fieldsOf p.id)) := StreamKey.readOwn_of_group hg
    have hreply : (exec cfg w s (.readOwn (snapshot.card + 100))).2 =
        .entries ((((g.pending.filter (·.consumer = w)).take (snapshot.card + 100)).map
          fun p => (p.id, s.stream.fieldsOf p.id)).map fun e => (some e.1, e.2)) := by
      simp only [exec, hread]
    simp only [backlog, hreply, entriesOf_response, usable, ownPending, hg, List.map_map,
      List.filter_map]
    rfl

/-- The first hundred outside the snapshot are on the page. -/
theorem take_unseen_prefix (w : W) (s : Server W) (snapshot : Finset ℕ) :
    (unseen w s snapshot).take 100 <+:
      ((ownPending w s).take (snapshot.card + 100)).filter (·.id ∉ snapshot) := by
  have hnodup : ((ownPending w s).map PendingEntry.id).Nodup :=
    List.pairwise_map.mpr ((sorted_ownPending w s).imp fun h => h.ne)
  refine take_filter_prefix ?_ 100
  simpa using countP_snapshot_le hnodup snapshot

/-- An empty scan says that every own pending entry is in the snapshot. -/
theorem mem_of_backlog_nil {protocol : Protocol} {stream : String}
    (h : backlog cfg w protocol stream s snapshot = []) :
    ∀ p ∈ ownPending w s, p.id ∈ snapshot := by
  have hfirst := take_unseen_prefix w s snapshot
  rw [backlog_eq, List.map_eq_nil_iff] at h
  rw [h, List.prefix_nil, List.take_eq_nil_iff] at hfirst
  have hunseen := hfirst.resolve_left (by decide)
  intro p hp
  by_contra hid
  have hmem : p ∈ unseen w s snapshot := List.mem_filter.mpr ⟨hp, by simpa using hid⟩
  rw [hunseen] at hmem
  cases hmem

/-- **The backlog scan misses nothing.** Whatever is pending and whatever has been taken: what
`_backlog` returns is a first part of the worker's own pending entries outside the snapshot, in the
order of their identifiers, with the first hundred of them. It is empty only if every own pending
entry is in the snapshot. -/
theorem backlog_complete (cfg : Config W π) (w : W) (protocol : Protocol) (stream : String)
    (s : Server W) (snapshot : Finset ℕ) :
    ∃ found : List (PendingEntry W),
      backlog cfg w protocol stream s snapshot = found.map (delivery s) ∧
      found <+: unseen w s snapshot ∧ (found.Pairwise fun p q => p.id < q.id) ∧
      (unseen w s snapshot).take (min 100 (unseen w s snapshot).length) <+: found ∧
      (backlog cfg w protocol stream s snapshot = [] → ∀ p ∈ ownPending w s, p.id ∈ snapshot) := by
  refine ⟨_, backlog_eq protocol stream, (List.take_prefix _ _).filter _,
    ((sorted_ownPending w s).sublist (List.take_sublist _ _)).filter _, ?_, mem_of_backlog_nil⟩
  rw [← List.take_eq_take_min]
  exact take_unseen_prefix w s snapshot

/-! ## The lead loop -/

/-- The lead loop reads and filters as `_backlog` does. It goes on to new entries only if every own
pending entry was in the snapshot when the read executed. -/
theorem LeadStep.reads_new {k k' : Worker W} {l l' : Lead W} {note : Note W}
    (h : LeadStep cfg w k l note k') (hpc : l.pc = .collecting snapshot)
    (hreply : l.reply = some (exec cfg w s (.readOwn (snapshot.card + 100))).2)
    (hlead : k'.lead = some l') (hread : l'.pc = .reading) :
    ∀ p ∈ ownPending w s, p.id ∈ snapshot := by
  cases h with
  | collected snapshot' es hpc' hreply' =>
    obtain rfl := LeadPc.collecting.inj (hpc.symm.trans hpc')
    have hes := Option.some.inj (hreply.symm.trans hreply')
    have hbacklog : backlog cfg w .resp2 "" s snapshot = usable snapshot es := by
      rw [backlog, hes]
      simp only [entriesOf_response]
    apply mem_of_backlog_nil (hbacklog.trans _)
    by_contra hfound
    rw [Worker.collected, if_neg hfound] at hlead
    obtain rfl := Option.some.inj hlead
    cases hread
  | collectedNone snapshot' hpc' hreply' =>
    obtain rfl := Option.some.inj hlead
    cases hread
  | failed rest hunwinds =>
    rw [Worker.pc_exit hlead] at hread
    cases hread
  | _ => simp_all

end RedisSemaphore.Dispatch
