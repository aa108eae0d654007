import RedisSemaphore.Dispatch.NoLoss
import RedisSemaphore.Dispatch.Order

/-!
# Dropping a job takes two commands

`_finish` acknowledges and deletes an entry in one transaction. The drop paths of `_dispatch` send
`XACK` and then `XDEL`. Between the two the entry is in the stream and not pending, and nothing but
the lead loop that is about to send `XDEL` knows of it.

`dropped_whole` says that this is the only gap: in every run in which no lead loop ends inside it,
what is in the stream is undelivered, pending, or about to be deleted. `left_behind` is the other
side: an entry that was delivered and is not pending stays so for good.
-/

namespace RedisSemaphore.Dispatch

open Redis Transition

variable {W : Type*} {π : Type} {cfg : Config W π}

/-! ## What a status shows -/

/-- `DISPATCH_STATUS_SCRIPT` without the age of the oldest entry: the length of the stream and the
number of pending entries. -/
def dispatchStatus (s : StreamKey W Fields) : ℕ × ℕ :=
  if s.entries.length = 0 then (0, 0) else (s.entries.length, s.pendingIds.length)

/-- The numbers of a `QueueStatus`. -/
structure QueueStatus where
  length : ℕ
  inProgress : ℕ
  waiting : ℤ
  hasLeader : Bool
  deriving DecidableEq, Repr

/-- `_build_status`. -/
def buildStatus (length inProgress leaders : ℕ) : QueueStatus where
  length := length
  inProgress := inProgress
  waiting := max 0 ((length : ℤ) - inProgress)
  hasLeader := decide (0 < leaders)

/-- `status`. -/
def Server.status (s : Server W) : QueueStatus :=
  buildStatus (dispatchStatus s.stream).1 (dispatchStatus s.stream).2 s.lock.toList.length

/-- The entries nobody has taken. -/
def undelivered (s : StreamKey W Fields) : List (StreamEntry Fields) :=
  s.entries.filter (s.lastDelivered < ·.id)

/-- The entry will be delivered, or is pending and will be delivered again. -/
def Awaited (s : StreamKey W Fields) (id : ℕ) : Prop := s.lastDelivered < id ∨ id ∈ s.pendingIds

/-- Whatever is in the stream will be looked at again. -/
def Whole (s : StreamKey W Fields) : Prop := ∀ id, (s.fieldsOf id).isSome → Awaited s id

section Status

variable {s : StreamKey W Fields}

/-- In a whole stream a delivered entry is pending. -/
theorem Whole.mem_pendingIds (h : Whole s) {e : StreamEntry Fields} (he : e ∈ s.entries)
    (hold : e.id ≤ s.lastDelivered) : e.id ∈ s.pendingIds := by
  have hlive : (s.fieldsOf e.id).isSome :=
    Option.isSome_iff_exists.mpr ⟨e.fields, StreamKey.fieldsOf_eq_some.mpr he⟩
  rcases h e.id hlive with hnew | hpending
  · omega
  · exact hpending

/-- A whole stream has at most the undelivered entries and the pending ones. -/
theorem Whole.length_le (h : Whole s) :
    s.entries.length ≤ (undelivered s).length + s.pendingIds.length := by
  have hsplit := List.length_eq_length_filter_add (l := s.entries)
    (fun e => decide (s.lastDelivered < e.id))
  have hpending : (s.entries.filter fun e => !decide (s.lastDelivered < e.id)).length ≤
      s.pendingIds.length := by
    rw [← List.length_map (f := StreamEntry.id)]
    apply (List.subperm_of_subset _ _).length_le
    · apply List.Nodup.sublist (List.filter_sublist.map _)
      exact (List.pairwise_map.mpr s.sorted).imp fun hlt => hlt.ne
    · intro id hid
      obtain ⟨e, he, rfl⟩ := List.mem_map.mp hid
      obtain ⟨he, hold⟩ := List.mem_filter.mp he
      apply h.mem_pendingIds he
      simpa using hold
  unfold undelivered
  omega

/-- A whole stream with nothing undelivered and nothing pending is empty. -/
theorem Whole.entries_eq_nil (h : Whole s) (hnew : undelivered s = [])
    (hpending : s.pendingIds = []) : s.entries = [] := by
  have hle := h.length_le
  rw [hnew, hpending] at hle
  exact List.eq_nil_of_length_eq_zero (by simpa using hle)

/-- `waiting` counts undelivered entries only. -/
theorem Whole.waiting_le {s : Server W} (h : Whole s.stream) :
    s.status.waiting ≤ (undelivered s.stream).length := by
  have hle := h.length_le
  unfold Server.status buildStatus dispatchStatus
  split
  · simp
  · show max 0 ((s.stream.entries.length : ℤ) - s.stream.pendingIds.length) ≤ _
    omega

end Status

/-! ## What a delivery without fields says -/

/-- The entry was in the stream once and has been deleted. -/
def Deleted (s : StreamKey W Fields) (id : ℕ) : Prop := id ≤ s.lastId ∧ s.fieldsOf id = none

/-- A delivery without fields is one of a deleted entry. -/
def Truthful (s : StreamKey W Fields) (d : Delivery) : Prop :=
  ∀ id, d.1 = some id → d.2.getD [] = [] → Deleted s id

/-- The entry of an `XACK` that no `XDEL` follows. -/
def LeadPc.acksOnly : LeadPc W → Option ℕ
  | .acking entry false _ => some entry
  | _ => none

/-- What a lead loop carries is truthful, and what it only acknowledges is deleted. -/
structure Lead.Truthful (s : StreamKey W Fields) (l : Lead W) : Prop where
  carried : ∀ d ∈ l.carried, Dispatch.Truthful s d
  acksOnly : ∀ id, l.pc.acksOnly = some id → Deleted s id

section Truthful

variable {s s' : StreamKey W Fields} {id : ℕ}

/-- What is deleted does not come back. -/
theorem Deleted.advances (h : Deleted s id) (hs : s.Advances s') : Deleted s' id := by
  refine ⟨h.1.trans_eq hs.lastId.symm, ?_⟩
  rw [StreamKey.fieldsOf_eq_none]
  intro e he
  exact StreamKey.fieldsOf_eq_none.mp h.2 e (hs.entries e he)

/-- An append gives a new identifier, so what was deleted stays deleted. -/
theorem Deleted.add (h : Deleted s id) {new : ℕ} {fields : Fields} (hnew : s.lastId < new) :
    Deleted (s.add new fields hnew) id := by
  refine ⟨h.1.trans hnew.le, ?_⟩
  rw [StreamKey.fieldsOf_eq_none]
  intro e he
  rcases List.mem_append.mp he with he | he
  · exact StreamKey.fieldsOf_eq_none.mp h.2 e he
  · obtain rfl := List.mem_singleton.mp he
    show new ≠ id
    have hle := h.1
    omega

/-- Nothing is read of a deleted entry. -/
theorem Deleted.not_live (h : Deleted s id) : ¬ (s.fieldsOf id).isSome := by
  rw [h.2]
  simp

/-- What is still stored was stored. -/
theorem live_of_advances (hs : s.Advances s') (hlive : (s'.fieldsOf id).isSome) :
    (s.fieldsOf id).isSome := by
  obtain ⟨fields, hfields⟩ := Option.isSome_iff_exists.mp hlive
  have hmem := hs.entries _ (StreamKey.fieldsOf_eq_some.mp hfields)
  exact Option.isSome_iff_exists.mpr ⟨fields, StreamKey.fieldsOf_eq_some.mpr hmem⟩

/-- `XDEL` deletes. -/
theorem not_live_del : ¬ ((s.del id).fieldsOf id).isSome := by
  have hnone : (s.del id).fieldsOf id = none := by
    rw [StreamKey.fieldsOf_eq_none]
    intro e he
    simpa using (List.mem_filter.mp he).2
  simp [hnone]

/-- What is truthful stays so while nothing that was deleted comes back. -/
theorem Lead.Truthful.mono {l : Lead W} (h : l.Truthful s)
    (hs : ∀ id, Deleted s id → Deleted s' id) : l.Truthful s' := by
  refine ⟨?_, ?_⟩
  · intro d hd id hid hempty
    exact hs id (h.carried d hd id hid hempty)
  · intro id hpc
    exact hs id (h.acksOnly id hpc)

end Truthful

/-! ## One worker -/

/-- The drop of the entry is between its commands: `XACK` has executed, `XDEL` has not. -/
def Lead.Drops (l : Lead W) (id : ℕ) : Prop :=
  (∃ rest, l.pc = .acking id true rest) ∧ l.reply ≠ none ∨
    (∃ rest, l.pc = .deleting id rest) ∧ l.reply = none

/-- The lead loop of the worker is between the commands of a drop. -/
def Worker.Drops (k : Worker W) (id : ℕ) : Prop := ∃ l, k.lead = some l ∧ l.Drops id

/-- The lead loop carries some of these deliveries only, and what it acknowledges without deleting
is reported without fields by one of them. -/
structure Worker.Carries (k : Worker W) (es : List Delivery) : Prop where
  carried : ∀ l, k.lead = some l → l.carried ⊆ es
  acksOnly : ∀ l id, k.lead = some l → l.pc.acksOnly = some id →
    ∃ fields, (some id, fields) ∈ es ∧ fields.getD [] = []

section Worker

variable {w : W} {k k' : Worker W} {l : Lead W} {note : Note W} {es : List Delivery} {id : ℕ}

/-- A worker that does not lead carries nothing. -/
theorem carries_off (hlead : k.lead = none) : k.Carries es := by
  refine ⟨?_, ?_⟩
  · intro l hl
    rw [hlead] at hl
    cases hl
  · intro l id hl
    rw [hlead] at hl
    cases hl

/-- The batch at the new program counter is part of the old one, and no acknowledgement without a
deletion begins. -/
theorem carries_leadTo {pc : LeadPc W} (h : pc.rest ⊆ es) (hpc : pc.acksOnly = none) :
    (k.leadTo l pc).Carries es := by
  refine ⟨?_, ?_⟩
  · intro l' hl'
    obtain rfl := Option.some.inj hl'
    rw [Lead.carried_goto]
    exact h
  · intro l' id hl' hacks
    obtain rfl := Option.some.inj hl'
    rw [Lead.goto, hpc] at hacks
    cases hacks

/-- The way out drops what was carried. -/
theorem carries_exit {rest : List Delivery} : (k.exit l rest).Carries es := by
  unfold Worker.exit
  split
  · exact carries_leadTo (List.nil_subset _) rfl
  · exact carries_off rfl

/-- After a hand-back the rest is carried, or nothing. -/
theorem carries_goOn {next : Next} (h : next.rest ⊆ es) : (k.goOn l next).Carries es := by
  cases next with
  | exit rest => exact carries_exit
  | handRest rest =>
    rw [Worker.goOn, Worker.handRest]
    split
    · exact carries_exit
    · exact carries_leadTo h rfl

/-- What a page found is carried. -/
theorem carries_reclaimed {found : List Delivery} (h : found ⊆ es) :
    (k.reclaimed l found).Carries es := by
  unfold Worker.reclaimed
  split
  · exact carries_leadTo (List.nil_subset _) rfl
  · exact carries_leadTo h rfl

/-- So it is while dead consumers are removed. -/
theorem carries_prune {found : List Delivery} {dead : List W} (h : found ⊆ es) :
    (k.prune l found dead).Carries es := by
  cases dead with
  | nil => exact carries_reclaimed h
  | cons name dead => exact carries_leadTo h rfl

variable [DecidableEq W]

/-- A lead loop gets deliveries from replies only. -/
theorem LeadStep.carries (h : LeadStep cfg w k l note k') : k'.Carries l.carried := by
  have hin {pc : LeadPc W} {found : List Delivery} (hpc : l.pc = pc) (hfound : pc.rest = found) :
      found ⊆ l.carried := hfound ▸ hpc ▸ l.rest_subset
  have hbrought {pc : LeadPc W} {r : Reply W} (hpc : l.pc = pc) (hreply : l.reply = some r) :
      pc.brought r ⊆ l.carried := hpc ▸ Lead.brought_subset hreply
  have htail {e : Delivery} {rest : List Delivery} (hpc : l.pc = .batch (e :: rest)) :
      rest ⊆ l.carried := fun d hd => hin hpc rfl (List.mem_cons_of_mem e hd)
  cases h with
  | ensured ret r hpc hreply => cases ret <;> exact carries_leadTo (List.nil_subset _) rfl
  | leave | waitCancelled | unwound | handCancelled | failed => exact carries_exit
  | claimed snapshot found cursor hpc hreply => exact carries_reclaimed (hbrought hpc hreply)
  | inspect snapshot found cursor hpc hreply => exact carries_leadTo (hbrought hpc hreply) rfl
  | inspected found infos hpc hreply => exact carries_prune (hin hpc rfl)
  | inspectedNone found hpc hreply => exact carries_reclaimed (hin hpc rfl)
  | pruned name dead found r hpc hreply => exact carries_prune (hin hpc rfl)
  | collected snapshot found hpc hreply =>
    unfold Worker.collected
    split
    · exact carries_leadTo (List.nil_subset _) rfl
    · exact carries_leadTo (hbrought hpc hreply) rfl
  | read found hpc hreply => exact carries_leadTo (hbrought hpc hreply) rfl
  | skipNil fields rest hpc => exact carries_leadTo (htail hpc) rfl
  | dropDeleted entry fields rest hpc hempty =>
    -- the one step after which an acknowledgement stands alone
    refine ⟨?_, ?_⟩
    · intro l' hl'
      obtain rfl := Option.some.inj hl'
      rw [Lead.carried_goto]
      exact htail hpc
    · intro l' id hl' hacks
      obtain rfl := Option.some.inj hl'
      obtain rfl : entry = id := Option.some.inj hacks
      exact ⟨fields, hin hpc rfl List.mem_cons_self, hempty⟩
  | dropMalformed entry fields rest hpc hfields hjob => exact carries_leadTo (htail hpc) rfl
  | dropExpired entry fields rest job hpc => exact carries_leadTo (htail hpc) rfl
  | acked entry rest r hpc hreply => exact carries_leadTo (hin hpc rfl) rfl
  | ackedDeleted entry rest r hpc hreply => exact carries_leadTo (hin hpc rfl) rfl
  | deleted entry rest r hpc hreply => exact carries_leadTo (hin hpc rfl) rfl
  | startUncapped entry fields rest job hpc => exact carries_leadTo (htail hpc) rfl
  | cap entry fields rest job m hpc => exact carries_leadTo (htail hpc) rfl
  | startCapped entry jobId rest m hpc hcap hroom => exact carries_leadTo (hin hpc rfl) rfl
  | capLeft entry jobId rest hpc hover => exact carries_leadTo (hin hpc rfl) rfl
  | settled t task rest hpc => exact carries_leadTo (hin hpc rfl) rfl
  | cancelled t task rest hpc => exact carries_leadTo (hin hpc rfl) rfl
  | abandon t task rest hpc => exact carries_leadTo (hin hpc rfl) rfl
  | waitAbandoned t task rest hpc => exact carries_leadTo (hin hpc rfl) rfl
  | abandoned t task raising rest hpc =>
    apply carries_goOn
    cases raising <;> exact hin hpc rfl
  | abandonedBack t task raising rest hpc =>
    refine carries_leadTo ?_ rfl
    cases raising <;> exact hin hpc rfl
  | abandonCancelled t raising rest hpc => exact carries_leadTo (hin hpc rfl) rfl
  | locked entries next hpc hfree => exact carries_leadTo (hin hpc rfl) rfl
  | handed entries next r hpc hreply => exact carries_goOn (hin hpc rfl)
  | handFailed entries next hpc => exact carries_goOn (hin hpc rfl)
  | released | releaseFailed => exact carries_off rfl
  | _ => exact carries_leadTo (List.nil_subset _) rfl

/-- A lead loop stays truthful. -/
theorem LeadStep.truthful {s : StreamKey W Fields} {l' : Lead W} (h : LeadStep cfg w k l note k')
    (hl : l.Truthful s) (hl' : k'.lead = some l') : l'.Truthful s := by
  refine ⟨?_, ?_⟩
  · intro d hd
    exact hl.carried d (h.carries.carried l' hl' hd)
  · intro id hacks
    obtain ⟨fields, hmem, hempty⟩ := h.carries.acksOnly l' id hl' hacks
    exact hl.carried _ hmem id rfl hempty

/-- A drop goes on to its second command unless it fails. -/
theorem LeadStep.drops (h : LeadStep cfg w k l note k') (hdrops : l.Drops id)
    (hgo : ∀ cmd ∈ note.lost, cmd ≠ .ack id ∧ cmd ≠ .del id) : k'.Drops id := by
  rcases hdrops with ⟨⟨rest, hpc⟩, hreply⟩ | ⟨⟨rest, hpc⟩, hreply⟩
  · have hcmd : l.command = some (.ack id) := by rw [Lead.command, hpc]
    cases h with
    | acked entry rest' r hpc' hreply' =>
      obtain ⟨rfl, -, -⟩ := LeadPc.acking.inj (hpc.symm.trans hpc')
      exact ⟨_, rfl, Or.inr ⟨⟨rest', rfl⟩, rfl⟩⟩
    | failed rest' hpc' =>
      exact absurd rfl (hgo (.ack id) (Option.mem_toList.mpr hcmd)).1
    | _ => simp_all
  · have hcmd : l.command = some (.del id) := by rw [Lead.command, hpc]
    cases h with
    | failed rest' hpc' =>
      exact absurd rfl (hgo (.del id) (Option.mem_toList.mpr hcmd)).2
    | _ => simp_all

/-- The drop of a worker goes on unless it fails. -/
theorem Worker.Drops.step (hserial : Serial cfg w k) (hdrops : k.Drops id)
    (h : WorkerStep cfg w k note k') (hgo : ∀ cmd ∈ note.lost, cmd ≠ .ack id ∧ cmd ≠ .del id) :
    k'.Drops id := by
  obtain ⟨l, hl, hl'⟩ := hdrops
  cases h with
  | lead hlead hstep =>
    obtain rfl := Option.some.inj (hl.symm.trans hlead)
    exact hstep.drops hl' hgo
  | task htask hstep => exact ⟨l, hstep.frame.lead.trans hl, hl'⟩
  | run hstep =>
    cases hstep with
    | won mutex hasking =>
      rw [hserial.alone l hl] at hasking
      cases hasking
    | loseMutex l₀ hlead =>
      obtain rfl := Option.some.inj (hl.symm.trans hlead)
      exact ⟨_, rfl, hl'⟩
    | _ => exact ⟨l, hl, hl'⟩
  | touch hstep => cases hstep <;> exact ⟨l, hl, hl'⟩

/-- A worker stays truthful. -/
theorem WorkerStep.truthful {s : StreamKey W Fields} {l' : Lead W}
    (h : WorkerStep cfg w k note k') (hk : ∀ l, k.lead = some l → l.Truthful s)
    (hl' : k'.lead = some l') : l'.Truthful s := by
  cases h with
  | lead hlead hstep => exact hstep.truthful (hk _ hlead) hl'
  | task htask hstep => exact hk l' (hstep.frame.lead.symm.trans hl')
  | run hstep =>
    cases hstep with
    | won mutex hasking =>
      obtain rfl := Option.some.inj hl'
      refine ⟨?_, ?_⟩
      · intro d hd
        cases hd
      · intro id hacks
        cases hacks
    | loseMutex l₀ hlead =>
      obtain rfl := Option.some.inj hl'
      exact ⟨(hk l₀ hlead).carried, (hk l₀ hlead).acksOnly⟩
    | _ => exact hk l' hl'
  | touch hstep => cases hstep <;> exact hk l' hl'

end Worker

/-! ## One command -/

section Serve

variable {s : Server W} {l : Lead W} {w : W} {cmd : Command W} {id : ℕ}

/-- Where every entry has fields, what a stream reports of an entry is truthful. -/
theorem truthful_fieldsOf {s : StreamKey W Fields} (hfilled : ∀ e ∈ s.entries, e.fields ≠ [])
    (hid : id ∈ s.pendingIds) : Truthful s (some id, s.fieldsOf id) := by
  intro id' heq hempty
  obtain rfl := Option.some.inj heq
  refine ⟨(StreamKey.le_lastDelivered hid).trans s.lastDelivered_le_lastId, ?_⟩
  cases hfields : s.fieldsOf id with
  | none => rfl
  | some fields =>
    rw [hfields] at hempty
    exact absurd hempty (hfilled _ (StreamKey.fieldsOf_eq_some.mp hfields))

variable [DecidableEq W]

/-- Replies are truthful. -/
theorem truthful_brought (hfilled : ∀ e ∈ s.stream.entries, e.fields ≠ [])
    (hcmd : l.command = some cmd) :
    ∀ d ∈ l.pc.brought (exec cfg w s cmd).2, Truthful s.stream d := by
  intro d hd
  unfold Lead.command at hcmd
  -- three replies bring entries: those of a page, of the backlog and of a read of new ones
  cases hpc : l.pc with
  | claiming snapshot =>
    rw [hpc] at hcmd hd
    obtain rfl := Option.some.inj hcmd
    rw [exec] at hd
    split at hd
    · cases hd
    · rename_i stream es cursor hclaim
      obtain ⟨-, -, ids, hids, rfl⟩ := StreamKey.autoclaim_eq_some hclaim
      obtain ⟨id, hid, rfl⟩ := List.mem_map.mp (mem_of_mem_usable hd)
      have hreport := truthful_fieldsOf hfilled (hids.subset hid)
      rw [StreamKey.report]
      split
      · rename_i fields hfields
        rwa [hfields] at hreport
      · intro id' heq
        cases heq
  | collecting snapshot =>
    rw [hpc] at hcmd hd
    obtain rfl := Option.some.inj hcmd
    rw [exec] at hd
    split at hd
    · cases hd
    · rename_i stream es hread
      obtain ⟨-, -, ids, hids, rfl⟩ := StreamKey.readOwn_eq_some hread
      obtain ⟨e, he, rfl⟩ := List.mem_map.mp (mem_of_mem_usable hd)
      obtain ⟨id, hid, rfl⟩ := List.mem_map.mp he
      exact truthful_fieldsOf hfilled (hids.subset hid)
  | reading =>
    rw [hpc] at hcmd hd
    obtain rfl := Option.some.inj hcmd
    rw [exec] at hd
    split at hd
    · cases hd
    · rename_i stream es hread
      -- a new entry comes with the fields it was appended with, and these are some
      obtain ⟨rfl, -⟩ := StreamKey.readNew_eq_some hread
      obtain ⟨e, he, rfl⟩ := List.mem_map.mp hd
      intro id heq hempty
      exact absurd hempty (hfilled e (StreamKey.mem_of_mem_unread he).1)
  | _ =>
    rw [hpc] at hd
    cases hd

/-- A command leaves what is still in the stream awaited, if it does not take it off the pending
list. -/
theorem awaited_exec (hlive : ((exec cfg w s cmd).1.stream.fieldsOf id).isSome)
    (h : Awaited s.stream id)
    (hspares : ∀ name, cmd = .delConsumer name → ¬ s.stream.HasPending name)
    (hack : cmd = .ack id → id ∉ s.stream.pendingIds) :
    Awaited (exec cfg w s cmd).1.stream id := by
  have hold := live_of_advances (advances_exec cmd) hlive
  by_cases hremoves : Removes id cmd
  · cases cmd with
    | ack entry =>
      obtain rfl : entry = id := hremoves
      left
      exact StreamKey.shrinks_ack.lastDelivered.trans_lt (h.resolve_right (hack rfl))
    | del entry =>
      obtain rfl : entry = id := hremoves
      exact absurd hlive not_live_del
    | finish jobId entry =>
      obtain rfl : entry = id := hremoves
      exact absurd hlive not_live_del
    | _ => exact hremoves.elim
  · exact (reachable_exec ⟨hold, h⟩ hremoves hspares).2

end Serve

/-! ## Runs -/

/-- No drop is broken off. `XADD` takes at least one field; no consumer is deleted with entries
pending; no lead loop crashes, or gives up a command of the drop, between `XACK` and `XDEL`; and no
`XACK` that was given up takes an entry that is still in the stream off the pending list. -/
structure Unbroken (s : World W) (e : Event W) : Prop where
  fields : ∀ id fields, e = .append id fields → fields ≠ []
  spares : Spares s e
  crash : ∀ w id, e = .crash w → ¬ (s.workers w).Drops id
  fails : ∀ w note id, e = .act w note → (s.workers w).Drops id →
    ∀ cmd ∈ note.lost, cmd ≠ .ack id ∧ cmd ≠ .del id
  late : ∀ w id, e = .late w (.ack id) → id ∈ s.server.stream.pendingIds →
    s.server.stream.fieldsOf id = none

/-- The invariant: what is in the stream is awaited or being dropped. -/
structure Covered (cfg : Config W π) (s : World W) : Prop where
  serial : ∀ w, Serial cfg w (s.workers w)
  filled : ∀ e ∈ s.server.stream.entries, e.fields ≠ []
  truthful : ∀ w l, (s.workers w).lead = some l → l.Truthful s.server.stream
  covered : ∀ id, (s.server.stream.fieldsOf id).isSome →
    Awaited s.server.stream id ∨ ∃ w, (s.workers w).Drops id

section Run

variable [DecidableEq W] {tr : List (Event W)} {s s' : World W} {e : Event W} {w : W} {id : ℕ}

/-- A reply tells a worker the truth. -/
theorem Worker.truthful_answer {k : Worker W} {server : Server W} {co : Co} {cmd : Command W}
    {l' : Lead W} (hfilled : ∀ e ∈ server.stream.entries, e.fields ≠ [])
    (hk : ∀ l, k.lead = some l → l.Truthful server.stream) (hcmd : k.command co = some cmd)
    (hl' : (k.answer (exec cfg w server cmd).2 co).lead = some l') :
    l'.Truthful server.stream := by
  by_cases hco : co = .lead
  · subst hco
    obtain ⟨l, hlead, hl⟩ := Option.bind_eq_some_iff.mp hcmd
    obtain rfl := Option.some.inj ((Worker.lead_answer hlead).symm.trans hl')
    refine ⟨?_, (hk l hlead).acksOnly⟩
    intro d hd
    rcases List.mem_append.mp hd with hd | hd
    · exact (hk l hlead).carried d (l.rest_subset hd)
    · exact truthful_brought hfilled hl d hd
  · rw [Worker.answer_lead hco] at hl'
    exact hk l' hl'

omit [DecidableEq W] in
/-- Only the lead loop acknowledges. -/
theorem Worker.lead_of_command_ack {k : Worker W} {co : Co} (h : k.command co = some (.ack id)) :
    co = .lead ∧ ∃ l thenDel rest, k.lead = some l ∧ l.pc = .acking id thenDel rest := by
  cases co with
  | lead =>
    obtain ⟨l, hl, hcmd⟩ := Option.bind_eq_some_iff.mp h
    obtain ⟨thenDel, rest, hpc⟩ := Lead.pc_of_command_ack hcmd
    exact ⟨rfl, l, thenDel, rest, hl, hpc⟩
  | task t =>
    obtain ⟨task, -, hcmd⟩ := Option.bind_eq_some_iff.mp h
    rcases Task.command_eq hcmd with heq | heq <;> cases heq
  | run =>
    rw [Worker.command] at h
    split at h <;> cases h
  | touch =>
    rw [Worker.command] at h
    split at h <;> cases h

/-- A drop that has sent its second command ends with it. -/
theorem Worker.drops_answer {k : Worker W} {server : Server W} {co : Co} {cmd : Command W}
    (hcmd : k.command co = some cmd) (hdrops : k.Drops id)
    (hlive : ((exec cfg w server cmd).1.stream.fieldsOf id).isSome) :
    (k.answer (exec cfg w server cmd).2 co).Drops id := by
  obtain ⟨l, hl, hl'⟩ := hdrops
  by_cases hco : co = .lead
  · subst hco
    obtain ⟨l₀, hlead, hcmd⟩ := Option.bind_eq_some_iff.mp hcmd
    obtain rfl := Option.some.inj (hl.symm.trans hlead)
    refine ⟨_, Worker.lead_answer hl, ?_⟩
    rcases hl' with ⟨hpc, -⟩ | ⟨⟨rest, hpc⟩, -⟩
    · exact Or.inl ⟨hpc, by simp⟩
    · rw [Lead.command, hpc] at hcmd
      obtain rfl := Option.some.inj hcmd
      exact absurd hlive not_live_del
  · exact ⟨l, (Worker.answer_lead hco).trans hl, hl'⟩

/-- A command of a worker executes: whatever it acknowledges in the stream is being dropped. -/
theorem Covered.exec (h : Covered cfg s) {co : Co} {cmd : Command W}
    (hcmd : (s.workers w).command co = some cmd)
    (hspares : ∀ name, cmd = .delConsumer name → ¬ s.server.stream.HasPending name) :
    Covered cfg { s with
      server := (Dispatch.exec cfg w s.server cmd).1
      workers := Function.update s.workers w
        ((s.workers w).answer (Dispatch.exec cfg w s.server cmd).2 co) } := by
  have hadvances : s.server.stream.Advances (Dispatch.exec cfg w s.server cmd).1.stream :=
    advances_exec cmd
  refine ⟨?_, ?_, ?_, ?_⟩
  · intro w'
    by_cases heq : w' = w
    · subst heq
      simpa only [Function.update_self] using (h.serial w').answer
    · simpa only [Function.update_of_ne heq] using h.serial w'
  · intro e he
    exact h.filled e (hadvances.entries e he)
  · intro w' l hl
    refine Lead.Truthful.mono ?_ fun id hdeleted => hdeleted.advances hadvances
    by_cases heq : w' = w
    · subst heq
      simp only [Function.update_self] at hl
      exact Worker.truthful_answer h.filled (h.truthful w') hcmd hl
    · simp only [Function.update_of_ne heq] at hl
      exact h.truthful w' l hl
  · intro id hlive
    have hdrops {w' : W} (hdrops : (s.workers w').Drops id) :
        (Function.update s.workers w
          ((s.workers w).answer (Dispatch.exec cfg w s.server cmd).2 co) w').Drops id := by
      by_cases heq : w' = w
      · subst heq
        simpa only [Function.update_self] using Worker.drops_answer hcmd hdrops hlive
      · simpa only [Function.update_of_ne heq] using hdrops
    rcases h.covered id (live_of_advances hadvances hlive) with hawaited | ⟨w', hw'⟩
    · by_cases hack : cmd = .ack id
      · -- only a lead loop acknowledges; if no `XDEL` follows, the entry is not there
        subst hack
        obtain ⟨rfl, l, thenDel, rest, hl, hpc⟩ := Worker.lead_of_command_ack hcmd
        cases thenDel with
        | false =>
          have hdeleted := (h.truthful w l hl).acksOnly id (by rw [hpc]; rfl)
          exact absurd hlive (hdeleted.advances hadvances).not_live
        | true =>
          refine Or.inr ⟨w, ?_⟩
          simp only [Function.update_self]
          exact ⟨_, Worker.lead_answer hl, Or.inl ⟨⟨rest, hpc⟩, by simp⟩⟩
      · exact Or.inl (awaited_exec hlive hawaited hspares fun heq => absurd heq hack)
    · exact Or.inr ⟨w', hdrops hw'⟩

/-- A command that was given up executes. -/
theorem Covered.late (h : Covered cfg s) {cmd : Command W}
    (hspares : ∀ name, cmd = .delConsumer name → ¬ s.server.stream.HasPending name)
    (hack : ∀ id, cmd = .ack id → id ∈ s.server.stream.pendingIds →
      s.server.stream.fieldsOf id = none) :
    Covered cfg { s with server := (Dispatch.exec cfg w s.server cmd).1 } := by
  have hadvances : s.server.stream.Advances (Dispatch.exec cfg w s.server cmd).1.stream :=
    advances_exec cmd
  refine ⟨h.serial, ?_, ?_, ?_⟩
  · intro e he
    exact h.filled e (hadvances.entries e he)
  · intro w' l hl
    exact (h.truthful w' l hl).mono fun id hdeleted => hdeleted.advances hadvances
  · intro id hlive
    have hold := live_of_advances hadvances hlive
    refine (h.covered id hold).imp_left fun hawaited => ?_
    apply awaited_exec hlive hawaited hspares
    intro heq hpending
    rw [hack id heq hpending] at hold
    cases hold

/-- A worker acts; the drop it is in the middle of goes on. -/
theorem Covered.act (h : Covered cfg s) {note : Note W} {k : Worker W}
    {stray : List (W × Command W)} (hstep : WorkerStep cfg w (s.workers w) note k)
    (hgo : ∀ id, (s.workers w).Drops id → ∀ cmd ∈ note.lost, cmd ≠ .ack id ∧ cmd ≠ .del id) :
    Covered cfg { s with workers := Function.update s.workers w k, stray := stray } := by
  refine ⟨?_, h.filled, ?_, ?_⟩
  · intro w'
    by_cases heq : w' = w
    · subst heq
      simpa only [Function.update_self] using (h.serial w').step hstep
    · simpa only [Function.update_of_ne heq] using h.serial w'
  · intro w' l hl
    by_cases heq : w' = w
    · subst heq
      simp only [Function.update_self] at hl
      exact hstep.truthful (h.truthful w') hl
    · simp only [Function.update_of_ne heq] at hl
      exact h.truthful w' l hl
  · intro id hlive
    refine (h.covered id hlive).imp_right ?_
    rintro ⟨w', hdrops⟩
    refine ⟨w', ?_⟩
    by_cases heq : w' = w
    · subst heq
      simpa only [Function.update_self] using hdrops.step (h.serial w') hstep (hgo id hdrops)
    · simpa only [Function.update_of_ne heq] using hdrops

/-- A worker that is between no two commands of a drop dies. -/
theorem Covered.crash (h : Covered cfg s) {stray : List (W × Command W)}
    (hidle : ∀ id, ¬ (s.workers w).Drops id) :
    Covered cfg { s with workers := Function.update s.workers w .dead, stray := stray } := by
  refine ⟨?_, h.filled, ?_, ?_⟩
  · intro w'
    by_cases heq : w' = w
    · subst heq
      simpa only [Function.update_self] using serial_dead
    · simpa only [Function.update_of_ne heq] using h.serial w'
  · intro w' l hl
    by_cases heq : w' = w
    · subst heq
      simp only [Function.update_self] at hl
      cases hl
    · simp only [Function.update_of_ne heq] at hl
      exact h.truthful w' l hl
  · intro id hlive
    refine (h.covered id hlive).imp_right ?_
    rintro ⟨w', hdrops⟩
    have heq : w' ≠ w := by
      rintro rfl
      exact hidle id hdrops
    exact ⟨w', by simpa only [Function.update_of_ne heq] using hdrops⟩

omit [DecidableEq W] in
/-- A new entry has fields and is undelivered. -/
theorem Covered.append (h : Covered cfg s) {new : ℕ} {fields : Fields}
    (hnew : s.server.stream.lastId < new) (hfields : fields ≠ []) :
    Covered cfg
      { s with server := { s.server with stream := s.server.stream.add new fields hnew } } := by
  refine ⟨h.serial, ?_, ?_, ?_⟩
  · intro e he
    rcases List.mem_append.mp he with he | he
    · exact h.filled e he
    · obtain rfl := List.mem_singleton.mp he
      exact hfields
  · intro w' l hl
    exact (h.truthful w' l hl).mono fun id hdeleted => hdeleted.add hnew
  · intro id hlive
    obtain ⟨fields', hfields'⟩ := Option.isSome_iff_exists.mp hlive
    rcases List.mem_append.mp (StreamKey.fieldsOf_eq_some.mp hfields') with hold | hnew'
    · apply h.covered id
      exact Option.isSome_iff_exists.mpr ⟨fields', StreamKey.fieldsOf_eq_some.mpr hold⟩
    · obtain ⟨rfl, -⟩ := StreamEntry.mk.inj (List.mem_singleton.mp hnew')
      exact Or.inl (Or.inl (s.server.stream.lastDelivered_le_lastId.trans_lt hnew))

/-- One step keeps the invariant. -/
theorem Covered.step (h : Covered cfg s) (hok : Unbroken s e) (hstep : Step cfg s e s') :
    Covered cfg s' := by
  cases hstep with
  | append new fields hnew => exact h.append hnew (hok.fields new fields rfl)
  | advance now hnow => exact ⟨h.serial, h.filled, h.truthful, h.covered⟩
  | expire => exact ⟨h.serial, h.filled, h.truthful, h.covered⟩
  | exec w co cmd hcmd =>
    apply h.exec hcmd
    rintro name rfl
    exact hok.spares w name rfl
  | late w cmd hstray =>
    apply h.late
    · rintro name rfl
      exact hok.spares w name rfl
    · rintro id rfl
      exact hok.late w id rfl
  | act w note k halive hstep =>
    apply h.act hstep
    intro id hdrops
    exact hok.fails w note id rfl hdrops
  | crash w => exact h.crash fun id => hok.crash w id rfl

/-- In a run that breaks no drop off, every entry is awaited or being dropped. -/
theorem covered_of_run (h : ((system cfg).restrict Unbroken).Run tr s) : Covered cfg s := by
  refine System.Run.invariant (I := fun _ s => Covered cfg s) ?_ ?_ h
  · rintro s rfl
    refine ⟨fun w => serial_initial, ?_, ?_, ?_⟩
    · intro e he
      cases he
    · intro w l hl
      cases hl
    · intro id hlive
      cases hlive
  · intro tr s e s' _ hcovered hstep
    exact hcovered.step hstep.1 hstep.2

/-- **A drop is all or nothing while nobody breaks it off**: what is in the stream is undelivered,
pending, or about to be deleted by a lead loop that runs. With no drop under way, the length is `0`
once nothing is undelivered and nothing pending, and `waiting` counts undelivered entries only. -/
theorem dropped_whole (h : ((system cfg).restrict Unbroken).Run tr s) :
    (∀ id, (s.server.stream.fieldsOf id).isSome →
      Awaited s.server.stream id ∨ ∃ w, (s.workers w).Drops id) ∧
    ((∀ w id, ¬ (s.workers w).Drops id) → Whole s.server.stream ∧
      (undelivered s.server.stream = [] → s.server.stream.pendingIds = [] →
        s.server.status.length = 0) ∧
      s.server.status.waiting ≤ (undelivered s.server.stream).length) := by
  have hcovered := covered_of_run h
  refine ⟨hcovered.covered, ?_⟩
  intro hnone
  have hwhole : Whole s.server.stream := by
    intro id hlive
    apply (hcovered.covered id hlive).resolve_right
    rintro ⟨w, hdrops⟩
    exact hnone w id hdrops
  refine ⟨hwhole, ?_, hwhole.waiting_le⟩
  intro hnew hpending
  unfold Server.status dispatchStatus
  rw [hwhole.entries_eq_nil hnew hpending]
  rfl

/-- **An entry that was left behind stays behind**: once it is delivered and not pending, no command
of anybody makes it pending again, so no reclaim, backlog or read reports it. -/
theorem left_behind (h : (system cfg).Path s tr s') (hnot : ¬ Awaited s.server.stream id) :
    ¬ Awaited s'.server.stream id := by
  have hlater {stream stream' : StreamKey W Fields} (hs : stream.Advances stream')
      (h : ¬ Awaited stream id) : ¬ Awaited stream' id := by
    rintro (hnew | hpending)
    · exact h (Or.inl (hs.lastDelivered.trans_lt hnew))
    · rcases hs.pending id hpending with hold | hnew
      · exact h (Or.inr hold)
      · exact h (Or.inl hnew)
  refine System.Path.invariant (I := fun _ s => ¬ Awaited s.server.stream id) hnot ?_ h
  intro tr t e u _ ht hstep
  cases hstep with
  | append | advance | expire | act | crash => exact ht
  | exec w co cmd hcmd => exact hlater (advances_exec cmd) ht
  | late w cmd hstray => exact hlater (advances_exec cmd) ht

end Run

/-! ## A malformed job -/

section Malformed

/-- An entry without a payload. -/
def malformed : Fields := [("id", "j")]

/-- The entry of the run below has no payload. -/
theorem decode_malformed : decode plain.python malformed = none := by
  simp [decode, field, malformed, List.lookup_cons]

variable {s : World ℕ} {w id : ℕ}

/-- A segment that gives up no command breaks no drop off. -/
theorem unbroken_quiet : Unbroken s (.act w .quiet) := by
  refine ⟨by simp, ?_, by simp, ?_, by simp⟩
  · intro w name heq
    cases heq
  · intro w note id heq _ cmd hcmd
    obtain ⟨-, rfl⟩ := Event.act.inj heq
    cases hcmd

/-- Nor does a command that executes in time, unless it deletes a consumer. -/
theorem unbroken_exec {co : Co} {cmd : Command ℕ} (hcmd : ∀ name, cmd ≠ .delConsumer name) :
    Unbroken s (.exec w co cmd) := by
  refine ⟨by simp, ?_, by simp, by simp, by simp⟩
  intro w' name heq
  obtain ⟨-, rfl⟩ := Prod.mk.inj (Option.some.inj heq)
  exact absurd rfl (hcmd name)

/-- Nor does an append with fields. -/
theorem unbroken_append {fields : Fields} (hfields : fields ≠ []) :
    Unbroken s (.append id fields) := by
  refine ⟨?_, ?_, by simp, by simp, by simp⟩
  · intro id' fields' heq
    obtain ⟨-, rfl⟩ := Event.append.inj heq
    exact hfields
  · intro w name heq
    cases heq

/-- Worker `0` reads a malformed job and acknowledges it. -/
def acknowledged : List (Event ℕ) :=
  [.exec 0 .lead (.ack 1), .act 0 .quiet, .act 0 .quiet, .exec 0 .lead .readNew,
    .append 1 malformed, .act 0 .quiet, .act 0 .quiet, .exec 0 .lead .ensureGroup, .act 0 .quiet,
    .exec 0 .run (.acquire 0), .act 0 .quiet]

/-- The entry that has been acknowledged is being dropped. -/
theorem dropped_whole_acknowledged : ∃ s : World ℕ,
    ((system plain).restrict Unbroken).Run acknowledged s ∧
    (s.server.stream.fieldsOf 1).isSome ∧
    (Awaited s.server.stream 1 ∨ ∃ w, (s.workers w).Drops 1) := by
  have h : ((system plain).restrict Unbroken).Run []
      (⟨.initial, fun _ => .initial, []⟩ : World ℕ) := .start rfl
  have h := h.step ⟨unbroken_quiet, Step.act 0 _ _ rfl (.run (.ask rfl rfl))⟩
  have h := h.step ⟨unbroken_exec (by simp), Step.exec 0 .run _ rfl⟩
  have h := h.step ⟨unbroken_quiet, Step.act 0 _ _ rfl (.run (.won 0 rfl))⟩
  have h := h.step ⟨unbroken_exec (by simp), Step.exec 0 .lead _ rfl⟩
  have h := h.step ⟨unbroken_quiet, Step.act 0 _ _ rfl (.lead rfl (.ensured .top _ rfl rfl))⟩
  have h := h.step ⟨unbroken_quiet, Step.act 0 _ _ rfl (.lead rfl (.skip rfl rfl rfl rfl))⟩
  have h := h.step ⟨unbroken_append (by simp [malformed]), Step.append 1 malformed (by decide)⟩
  have h := h.step ⟨unbroken_exec (by simp), Step.exec 0 .lead _ rfl⟩
  have h := h.step ⟨unbroken_quiet, Step.act 0 _ _ rfl
    (.lead rfl (.read [(some 1, some malformed)] rfl rfl))⟩
  have h := h.step ⟨unbroken_quiet, Step.act 0 _ _ rfl
    (.lead rfl (.dropMalformed 1 malformed [] rfl (by simp [malformed]) decode_malformed))⟩
  have h := h.step ⟨unbroken_exec (by simp), Step.exec 0 .lead (.ack 1) rfl⟩
  exact ⟨_, h, rfl, (dropped_whole h).1 1 rfl⟩

/-- **A drop cut in half.** Worker `0` crashes after `XACK` and before `XDEL`. The entry is in the
stream and in no run that goes on from here will it be undelivered or pending; it counts as waiting
though somebody has taken it. -/
theorem crash_between_ack_and_del : ∃ s : World ℕ, (system plain).Run (.crash 0 :: acknowledged) s ∧
    (s.server.stream.fieldsOf 1).isSome ∧ s.server.status.waiting = 1 ∧
    undelivered s.server.stream = [] ∧
    ∀ tr s', (system plain).Path s tr s' → ¬ Awaited s'.server.stream 1 := by
  have h : (system plain).Run [] (⟨.initial, fun _ => .initial, []⟩ : World ℕ) := .start rfl
  have h := h.step (Step.act 0 _ _ rfl (.run (.ask rfl rfl)))
  have h := h.step (Step.exec 0 .run _ rfl)
  have h := h.step (Step.act 0 _ _ rfl (.run (.won 0 rfl)))
  have h := h.step (Step.exec 0 .lead _ rfl)
  have h := h.step (Step.act 0 _ _ rfl (.lead rfl (.ensured .top _ rfl rfl)))
  have h := h.step (Step.act 0 _ _ rfl (.lead rfl (.skip rfl rfl rfl rfl)))
  have h := h.step (Step.append 1 malformed (by decide))
  have h := h.step (Step.exec 0 .lead _ rfl)
  have h := h.step (Step.act 0 _ _ rfl
    (.lead rfl (.read [(some 1, some malformed)] rfl rfl)))
  have h := h.step (Step.act 0 _ _ rfl
    (.lead rfl (.dropMalformed 1 malformed [] rfl (by simp [malformed]) decode_malformed)))
  have h := h.step (Step.exec 0 .lead (.ack 1) rfl)
  have h := h.step (Step.crash 0)
  refine ⟨_, h, rfl, by decide, by decide, ?_⟩
  intro tr s' hpath
  apply left_behind hpath
  rintro (hnew | hpending)
  · exact absurd hnew (by decide)
  · exact absurd hpending (by decide)

end Malformed

end RedisSemaphore.Dispatch
