import RedisSemaphore.Dispatch.Once

/-!
# A queue in order

What the leader of a queue keeps while it goes on leading. Every pending entry is in `_taken`, is in
the leader's hands or is being dropped by it, so a snapshot of `_taken` holds every pending entry
and neither `_reclaim` nor `_backlog` brings anything. What has been delivered was started, was
skipped or is in hand, in the order of the stream and after everything started.
-/

namespace RedisSemaphore.Dispatch

open Redis Transition

variable {W : Type*} {π : Type} {cfg : Config W π}

/-! ## A leader -/

/-- The handler a local step starts. -/
def Note.starts : Note W → Option ℕ
  | .start entry => some entry
  | _ => none

/-- The lead loop is on its way out. -/
def LeadPc.Leaving : LeadPc W → Prop
  | .abandoning _ _ _ => True
  | .unwinding _ _ => True
  | .handing _ _ _ => True
  | .releasing => True
  | _ => False

/-- A lead loop runs, holds its Mutex as far as it knows and is not leaving. -/
def Worker.Leads (k : Worker W) : Prop :=
  k.stopping = false ∧ ∃ l, k.lead = some l ∧ l.held = true ∧ ¬ l.pc.Leaving

/-! ## The invariant of the leader -/

/-- The loop is about to acknowledge the entry it drops. -/
def LeadPc.Acks (id : ℕ) : LeadPc W → Prop
  | .acking entry _ _ => entry = id
  | _ => False

/-- The loop acknowledges or deletes the entry it drops. -/
def LeadPc.Discards (id : ℕ) : LeadPc W → Prop
  | .acking entry _ _ => entry = id
  | .deleting entry _ => entry = id
  | _ => False

/-- The deliveries a lead loop has in hand, or in its reply. -/
def Lead.carried (l : Lead W) : List Delivery := l.pc.rest ++ (l.reply.map l.pc.brought).getD []

/-- The queue as its leader sees it: `queued` says what has been queued with which fields, `skipped`
what may be left out, `starts` which handlers have been started, newest first. -/
structure InOrder (queued skipped : ℕ → Fields → Prop) (starts : List ℕ)
    (stream : StreamKey W Fields) (k : Worker W) (l : Lead W) : Prop where
  pending : ∀ id ∈ stream.pendingIds,
    id ∈ k.taken ∨ id ∈ l.coming ∨ (l.pc.Acks id ∧ l.reply = none)
  snapshot : ∀ snapshot, l.pc.snapshot = some snapshot → ∀ id ∈ stream.pendingIds, id ∈ snapshot
  sorted : l.coming.Pairwise (· < ·)
  ahead : ∀ id ∈ l.coming, id ≤ stream.lastDelivered ∧ ∀ id' ∈ starts, id' < id
  descending : starts.Pairwise fun later earlier => earlier < later
  delivered : ∀ id ∈ starts, id ≤ stream.lastDelivered
  covered : ∀ id fields, queued id fields → id ≤ stream.lastDelivered →
    id ∈ starts ∨ skipped id fields ∨ id ∈ l.coming
  carried : ∀ id reported, (some id, reported) ∈ l.carried →
    ∀ fields, queued id fields → reported = some fields
  unread : ∀ id fields, queued id fields → stream.lastDelivered < id → ⟨id, fields⟩ ∈ stream.entries
  released : ∀ (t : ℕ) (task : Task W), k.tasks[t]? = some task →
    (task.phase = .finishing ∧ task.reply ≠ none) ∨ task.phase = .delaying →
    task.entry ∉ stream.pendingIds
  discarded : ∀ id, l.pc.Discards id → id ≤ stream.lastDelivered

section Lead

variable {queued skipped skipped' : ℕ → Fields → Prop} {starts : List ℕ}
  {stream stream' : StreamKey W Fields} {k k₁ k' : Worker W} {l l₁ : Lead W} {note : Note W}

/-- On its way out a loop takes no more entries. -/
theorem Worker.not_leads_exit {rest : List Delivery} : ¬ (k.exit l rest).Leads := by
  rintro ⟨-, l', hl', -, hstays⟩
  rw [Worker.exit] at hl'
  split at hl'
  · obtain rfl := Option.some.inj hl'
    exact hstays trivial
  · cases hl'

/-- Nor does one at a program counter of the way out. -/
theorem Worker.not_leads_leadTo {pc : LeadPc W} (hpc : pc.Leaving) : ¬ (k.leadTo l pc).Leads := by
  rintro ⟨-, l', hl', -, hstays⟩
  obtain rfl := Option.some.inj hl'
  exact hstays hpc

/-- Where no reply brings anything, what may still be started is in hand. -/
theorem Lead.coming_eq {pc : LeadPc W} (hpc : l.pc = pc) (hquiet : ∀ r, pc.brought r = []) :
    l.coming = pc.inHand := by
  rw [Lead.coming, hpc]
  cases l.reply with
  | none => simp
  | some r => simp [LeadPc.arriving, hquiet r]

/-- What comes is the batch and what the reply brings. -/
theorem Lead.coming_of_reply {pc : LeadPc W} {r : Reply W} (hpc : l.pc = pc)
    (hreply : l.reply = some r) : l.coming = pc.inHand ++ pc.arriving r := by
  rw [Lead.coming, hpc, hreply]
  rfl

/-- The rest of the batch is carried. -/
theorem Lead.rest_subset : l.pc.rest ⊆ l.carried := List.subset_append_left _ _

/-- So is what the reply brings. -/
theorem Lead.brought_subset {r : Reply W} (hreply : l.reply = some r) :
    l.pc.brought r ⊆ l.carried := by
  rw [Lead.carried, hreply]
  exact List.subset_append_right _ _

/-- A move of the program counter has read the reply. -/
@[simp] theorem Lead.carried_goto {pc : LeadPc W} : (l.goto pc).carried = pc.rest := by
  simp [Lead.carried, Lead.goto]

/-- What is carried may still be started. -/
theorem Lead.mem_coming_of_carried {id : ℕ} {reported : Option Fields}
    (h : (some id, reported) ∈ l.carried) : id ∈ l.coming := by
  rcases List.mem_append.mp h with hrest | hbrought
  · refine List.mem_append_left _ (LeadPc.rest_sublist.subset ?_)
    exact List.mem_filterMap.mpr ⟨_, hrest, rfl⟩
  · refine List.mem_append_right _ ?_
    cases hreply : l.reply with
    | none =>
      rw [hreply] at hbrought
      exact absurd hbrought List.not_mem_nil
    | some r =>
      rw [hreply] at hbrought
      exact List.mem_filterMap.mpr ⟨_, hbrought, rfl⟩

/-- More may be skipped. -/
theorem InOrder.mono (h : InOrder queued skipped starts stream k l)
    (hskipped : ∀ id fields, skipped id fields → skipped' id fields) :
    InOrder queued skipped' starts stream k l where
  pending := h.pending
  snapshot := h.snapshot
  sorted := h.sorted
  ahead := h.ahead
  descending := h.descending
  delivered := h.delivered
  covered id fields hqueued hle :=
    (h.covered id fields hqueued hle).imp_right (Or.imp_left (hskipped id fields))
  carried := h.carried
  unread := h.unread
  released := h.released
  discarded := h.discarded

/-- A lead loop that goes on: what it could start it may still start, or it has skipped it. -/
theorem InOrder.leadTo {pc : LeadPc W} (h : InOrder queued skipped starts stream k l)
    (htasks : k₁.tasks = k.tasks)
    (hpending : ∀ id ∈ stream.pendingIds, id ∈ k₁.taken ∨ id ∈ pc.inHand ∨ pc.Acks id)
    (hsnapshot : ∀ snapshot, pc.snapshot = some snapshot → ∀ id ∈ stream.pendingIds, id ∈ snapshot)
    (hcoming : pc.inHand.Sublist l.coming)
    (hcovered : ∀ id ∈ l.coming, id ∈ pc.inHand ∨ ∀ fields, queued id fields → skipped id fields)
    (hcarried : pc.rest ⊆ l.carried)
    (hdiscarded : ∀ id, pc.Discards id → id ≤ stream.lastDelivered) :
    InOrder queued skipped starts stream (k₁.leadTo l₁ pc) (l₁.goto pc) := by
  refine ⟨?_, hsnapshot, ?_, ?_, h.descending, h.delivered, ?_, ?_, h.unread, ?_, hdiscarded⟩
  · intro id hid
    rw [Lead.coming_goto]
    refine (hpending id hid).imp_right (Or.imp_right ?_)
    exact fun hacks => ⟨hacks, rfl⟩
  · rw [Lead.coming_goto]
    exact h.sorted.sublist hcoming
  · intro id hid
    rw [Lead.coming_goto] at hid
    exact h.ahead id (hcoming.subset hid)
  · intro id fields hqueued hle
    rw [Lead.coming_goto]
    rcases h.covered id fields hqueued hle with hstart | hskip | hid
    · exact Or.inl hstart
    · exact Or.inr (Or.inl hskip)
    · rcases hcovered id hid with hkept | hskip
      · exact Or.inr (Or.inr hkept)
      · exact Or.inr (Or.inl (hskip fields hqueued))
  · intro id reported hmem
    rw [Lead.carried_goto] at hmem
    exact h.carried id reported (hcarried hmem)
  · intro t task htask
    exact h.released t task (htasks ▸ htask)

/-- A lead loop that goes on with what it has in hand. -/
theorem InOrder.stay {pc : LeadPc W} (h : InOrder queued skipped starts stream k l)
    (htasks : k₁.tasks = k.tasks) (htaken : k.taken ⊆ k₁.taken) (hcoming : l.coming = pc.inHand)
    (hacks : ∀ id, l.pc.Acks id → l.reply ≠ none) (hsnapshot : pc.snapshot = none)
    (hcarried : pc.rest ⊆ l.carried) (hdiscards : ∀ id, pc.Discards id → l.pc.Discards id) :
    InOrder queued skipped starts stream (k₁.leadTo l₁ pc) (l₁.goto pc) := by
  refine h.leadTo htasks ?_ ?_ (hcoming ▸ .refl _) ?_ hcarried ?_
  · intro id hid
    rcases h.pending id hid with hmem | hmem | ⟨hack, hnone⟩
    · exact Or.inl (htaken hmem)
    · exact Or.inr (Or.inl (hcoming ▸ hmem))
    · exact absurd hnone (hacks id hack)
  · intro snapshot hsome
    rw [hsnapshot] at hsome
    cases hsome
  · exact fun id hid => Or.inl (hcoming ▸ hid)
  · exact fun id hid => h.discarded id (hdiscards id hid)

/-- While a lead loop has nothing in hand, nothing on its way and no `XACK` under way, every pending
entry is in `_taken`: each of them is a handler's, or is being handed back. -/
theorem InOrder.taken_of_idle (h : InOrder queued skipped starts stream k l)
    (hcoming : l.coming = []) (hacks : ∀ id, ¬ l.pc.Acks id) : ∀ id ∈ stream.pendingIds,
    id ∈ k.taken := by
  intro id hid
  rcases h.pending id hid with hmem | hmem | ⟨hack, -⟩
  · exact hmem
  · rw [hcoming] at hmem
    exact absurd hmem List.not_mem_nil
  · exact absurd hack (hacks id)

/-- A lead loop with empty hands goes on with empty hands. The snapshot it goes on with, if any, is
`_taken` as it is now or the snapshot it has had before; either holds every pending entry, so the
`XAUTOCLAIM` or `XREADGROUP` that follows brings nothing. -/
theorem InOrder.look {pc : LeadPc W} (h : InOrder queued skipped starts stream k l)
    (htasks : k₁.tasks = k.tasks) (htaken : k₁.taken = k.taken) (hcoming : l.coming = [])
    (hacks : ∀ id, ¬ l.pc.Acks id)
    (hpc : pc.snapshot = some k.taken ∨ pc.snapshot = l.pc.snapshot) (hhand : pc.inHand = [])
    (hrest : pc.rest = []) (hdiscards : ∀ id, ¬ pc.Discards id) :
    InOrder queued skipped starts stream (k₁.leadTo l₁ pc) (l₁.goto pc) := by
  have hall := h.taken_of_idle hcoming hacks
  refine h.leadTo htasks ?_ ?_ ?_ ?_ ?_ ?_
  · exact fun id hid => Or.inl (htaken ▸ hall id hid)
  · intro snapshot hsome id hid
    rcases hpc with hnow | hbefore
    · obtain rfl := Option.some.inj (hnow.symm.trans hsome)
      exact hall id hid
    · exact h.snapshot snapshot (hbefore.symm.trans hsome) id hid
  · rw [hhand]
    exact List.nil_sublist _
  · -- nothing was in hand, so nothing is given up
    intro id hid
    rw [hcoming] at hid
    exact absurd hid List.not_mem_nil
  · rw [hrest]
    exact List.nil_subset _
  · exact fun id hid => absurd hid (hdiscards id)

/-- After a reclaim. -/
theorem InOrder.reclaimed {found : List Delivery} (h : InOrder queued skipped starts stream k l)
    (hcoming : l.coming = idList found) (hacks : ∀ id, ¬ l.pc.Acks id)
    (hcarried : found ⊆ l.carried) :
    ∃ l', (k.reclaimed l₁ found).lead = some l' ∧
      InOrder queued skipped starts stream (k.reclaimed l₁ found) l' := by
  rw [Worker.reclaimed]
  split
  · rename_i hnone
    subst hnone
    exact ⟨_, rfl, h.look rfl rfl hcoming hacks (Or.inl rfl) rfl rfl fun id hid => hid⟩
  · refine ⟨_, rfl, h.stay rfl Finset.subset_union_left hcoming ?_ rfl hcarried ?_⟩
    · exact fun id hack => absurd hack (hacks id)
    · exact fun id hid => hid.elim

/-- Removing dead consumers first changes no order. -/
theorem InOrder.prune {found : List Delivery} {dead : List W}
    (h : InOrder queued skipped starts stream k l) (hcoming : l.coming = idList found)
    (hacks : ∀ id, ¬ l.pc.Acks id) (hcarried : found ⊆ l.carried) :
    ∃ l', (k.prune l₁ found dead).lead = some l' ∧
      InOrder queued skipped starts stream (k.prune l₁ found dead) l' := by
  cases dead with
  | nil => exact h.reclaimed hcoming hacks hcarried
  | cons name dead =>
    refine ⟨_, rfl, h.stay rfl subset_rfl hcoming ?_ rfl hcarried fun id hid => hid.elim⟩
    exact fun id hack => absurd hack (hacks id)

/-- An entry of the batch is dropped: it is taken out, and about to be acknowledged. -/
theorem InOrder.drop {entry : ℕ} {reported : Option Fields} {thenDel : Bool} {rest : List Delivery}
    (h : InOrder queued skipped starts stream k l)
    (hpc : l.pc = .batch ((some entry, reported) :: rest))
    (hskip : ∀ fields, queued entry fields → skipped entry fields) :
    InOrder queued skipped starts stream
      ({ k with taken := k.taken.erase entry }.leadTo l₁ (.acking entry thenDel rest))
      (l₁.goto (.acking entry thenDel rest)) := by
  have hcoming : l.coming = entry :: idList rest := Lead.coming_eq hpc fun _ => rfl
  refine h.leadTo rfl ?_ ?_ ?_ ?_ ?_ ?_
  · intro id hid
    by_cases heq : id = entry
    · exact Or.inr (Or.inr heq.symm)
    · rcases h.pending id hid with hmem | hmem | ⟨hack, -⟩
      · exact Or.inl (Finset.mem_erase.mpr ⟨heq, hmem⟩)
      · rw [hcoming] at hmem
        exact Or.inr (Or.inl ((List.mem_cons.mp hmem).resolve_left heq))
      · rw [hpc] at hack
        exact hack.elim
  · intro snapshot hsome
    cases hsome
  · rw [hcoming]
    exact List.sublist_cons_self _ _
  · intro id hid
    rw [hcoming] at hid
    rcases List.mem_cons.mp hid with rfl | hmem
    · exact Or.inr hskip
    · exact Or.inl hmem
  · exact fun d hd => l.rest_subset (hpc ▸ List.mem_cons_of_mem _ hd)
  · rintro id rfl
    exact (h.ahead _ (hcoming ▸ List.mem_cons_self)).1

/-- What is carried was queued with the fields that are reported, so a drop for the sake of these
fields skips the entry for the sake of its own. -/
theorem InOrder.dropCarried {entry : ℕ} {reported : Option Fields} {thenDel : Bool}
    {rest : List Delivery} (h : InOrder queued skipped starts stream k l)
    (hpc : l.pc = .batch ((some entry, reported) :: rest))
    (hskip : ∀ fields, reported = some fields → skipped entry fields) :
    InOrder queued skipped starts stream
      ({ k with taken := k.taken.erase entry }.leadTo l₁ (.acking entry thenDel rest))
      (l₁.goto (.acking entry thenDel rest)) := by
  have hmem : (some entry, reported) ∈ l.carried :=
    l.rest_subset (by rw [hpc]; exact List.mem_cons_self)
  exact h.drop hpc fun fields hqueued => hskip fields (h.carried entry reported hmem fields hqueued)

/-- The handler of the next entry is started. -/
theorem InOrder.start {entry : ℕ} {jobId : String} {rest : List Delivery}
    (h : InOrder queued skipped starts stream k l) (hcoming : l.coming = entry :: idList rest)
    (hacks : ∀ id, ¬ l.pc.Acks id) (hcarried : rest ⊆ l.carried) :
    InOrder queued skipped (entry :: starts) stream (k.start l₁ entry jobId rest)
      (l₁.goto (.waiting k.tasks.length rest)) := by
  obtain ⟨hle, hahead⟩ := h.ahead entry (hcoming ▸ List.mem_cons_self)
  have hsorted := h.sorted
  rw [hcoming, List.pairwise_cons] at hsorted
  refine ⟨?_, ?_, ?_, ?_, ?_, ?_, ?_, ?_, h.unread, ?_, fun id hid => hid.elim⟩
  · intro id hid
    rw [Lead.coming_goto]
    rcases h.pending id hid with hmem | hmem | ⟨hack, -⟩
    · exact Or.inl (Finset.mem_insert_of_mem hmem)
    · rw [hcoming] at hmem
      rcases List.mem_cons.mp hmem with rfl | hrest
      · exact Or.inl (Finset.mem_insert_self _ _)
      · exact Or.inr (Or.inl hrest)
    · exact absurd hack (hacks id)
  · intro snapshot hsome
    cases hsome
  · rw [Lead.coming_goto]
    exact hsorted.2
  · intro id hid
    rw [Lead.coming_goto] at hid
    obtain ⟨hle', hahead'⟩ := h.ahead id (hcoming ▸ List.mem_cons_of_mem _ hid)
    refine ⟨hle', fun id' hid' => ?_⟩
    rcases List.mem_cons.mp hid' with rfl | hold
    · exact hsorted.1 id hid
    · exact hahead' id' hold
  · exact List.pairwise_cons.mpr ⟨hahead, h.descending⟩
  · intro id hid
    rcases List.mem_cons.mp hid with rfl | hold
    · exact hle
    · exact h.delivered id hold
  · intro id fields hqueued hle'
    rw [Lead.coming_goto]
    rcases h.covered id fields hqueued hle' with hstart | hskip | hmem
    · exact Or.inl (List.mem_cons_of_mem _ hstart)
    · exact Or.inr (Or.inl hskip)
    · rw [hcoming] at hmem
      rcases List.mem_cons.mp hmem with rfl | hrest
      · exact Or.inl List.mem_cons_self
      · exact Or.inr (Or.inr hrest)
  · intro id reported hmem
    rw [Lead.carried_goto] at hmem
    exact h.carried id reported (hcarried hmem)
  · intro t task htask hphase
    rcases Worker.getElem?_start htask with hold | ⟨-, rfl⟩
    · exact h.released t task hold hphase
    · rcases hphase with ⟨hphase, -⟩ | hphase <;> cases hphase

/-- **The leader keeps the order**: each of its segments that keeps leading. A malformed entry may
be skipped (`hdecode`), and so may the entry at the head of the batch when it is judged to be past
its deadline (`hjudge`); a caller says what it knows of that moment by its choice of `skipped`. -/
theorem InOrder.leadStep [DecidableEq W] {w : W} (h : InOrder queued skipped starts stream k l)
    (hlead : k.lead = some l) (hleads : k.Leads) (hstep : LeadStep cfg w k l note k')
    (hafter : k'.Leads) (hdecode : ∀ id fields, decode cfg.python fields = none → skipped id fields)
    (hjudge : ∀ id fields job rest, note = .judge id →
      l.pc = .batch ((some id, some fields) :: rest) → decode cfg.python fields = some job →
      skipped id fields) :
    ∃ l', k'.lead = some l' ∧
      InOrder queued skipped (note.starts.toList ++ starts) stream k' l' := by
  obtain ⟨hgoing, l₀, hl₀, hheld, hstays⟩ := hleads
  obtain rfl := Option.some.inj (hlead.symm.trans hl₀)
  -- a leader is neither stopping nor without its Mutex: the branches that look for that are closed
  have hnever (hover : l.held = false ∨ k.stopping = true) : False := by
    rcases hover with hlost | hstopping
    · rw [hheld] at hlost
      cases hlost
    · rw [hgoing] at hstopping
      cases hstopping
  -- what the loop may still start, and what it carries, read off the place where it is
  have hin {pc : LeadPc W} {es : List ℕ} (hpc : l.pc = pc) (hes : pc.inHand = es)
      (hquiet : ∀ r, pc.brought r = []) : l.coming = es := (Lead.coming_eq hpc hquiet).trans hes
  have hrep {pc : LeadPc W} {r : Reply W} {es : List ℕ} (hpc : l.pc = pc)
      (hreply : l.reply = some r) (hes : pc.inHand ++ pc.arriving r = es) : l.coming = es :=
    (Lead.coming_of_reply hpc hreply).trans hes
  have hrest {pc : LeadPc W} {es : List Delivery} (hpc : l.pc = pc) (hes : pc.rest = es) :
      es ⊆ l.carried := hes ▸ hpc ▸ l.rest_subset
  have hbrought {pc : LeadPc W} {r : Reply W} {es : List Delivery} (hpc : l.pc = pc)
      (hreply : l.reply = some r) (hes : pc.brought r = es) : es ⊆ l.carried :=
    hes ▸ hpc ▸ Lead.brought_subset hreply
  have hquiet {pc : LeadPc W} (hpc : l.pc = pc) (hnot : ∀ id, ¬ pc.Acks id) (id : ℕ) :
      ¬ l.pc.Acks id := hpc ▸ hnot id
  -- most branches only move on with what is in hand
  have hstay {pc pc' : LeadPc W} {k₁ : Worker W} {l₁ : Lead W} (hpc : l.pc = pc)
      (htasks : k₁.tasks = k.tasks) (htaken : k.taken ⊆ k₁.taken) (hcoming : l.coming = pc'.inHand)
      (hacks : ∀ id, pc.Acks id → l.reply ≠ none) (hsnapshot : pc'.snapshot = none)
      (hcarried : pc'.rest ⊆ l.carried) (hdiscards : ∀ id, pc'.Discards id → pc.Discards id) :
      ∃ l', (k₁.leadTo l₁ pc').lead = some l' ∧
        InOrder queued skipped starts stream (k₁.leadTo l₁ pc') l' := by
    subst hpc
    exact ⟨_, rfl, h.stay htasks htaken hcoming hacks hsnapshot hcarried hdiscards⟩
  have hnil : ([] : List Delivery) ⊆ l.carried := List.nil_subset _
  cases hstep with
  -- `_ensure_group`, and the top of the loop
  | ensured ret r hpc hreply =>
    have hcoming : l.coming = [] := hin hpc rfl fun _ => rfl
    cases ret with
    | top =>
      exact hstay hpc rfl subset_rfl hcoming (fun _ h => h.elim) rfl hnil fun _ h => h.elim
    | backlog =>
      exact ⟨_, rfl, h.look rfl rfl hcoming (hquiet hpc fun _ => id) (Or.inl rfl) rfl rfl
        fun _ => id⟩
    | read =>
      exact hstay hpc rfl subset_rfl hcoming (fun _ h => h.elim) rfl hnil fun _ h => h.elim
  | leave hpc hover => exact (hnever hover).elim
  | reclaim hpc hheld' hgo =>
    exact ⟨_, rfl, h.look rfl rfl (hin hpc rfl fun _ => rfl) (hquiet hpc fun _ => id) (Or.inl rfl)
      rfl rfl fun _ => id⟩
  | skip hpc hheld' hgo hnow =>
    exact hstay hpc rfl subset_rfl (hin hpc rfl fun _ => rfl) (fun _ h => h.elim) rfl hnil
      fun _ h => h.elim
  -- `_reclaim`: the snapshot is kept from the `TIME` on, so the `XAUTOCLAIM` claims nothing new
  | timed snapshot r hpc hreply =>
    exact ⟨_, rfl, h.look rfl rfl (hin hpc rfl fun _ => rfl) (hquiet hpc fun _ => id)
      (Or.inr (hpc ▸ rfl)) rfl rfl fun _ => id⟩
  | claimed snapshot es cursor hpc hreply =>
    exact h.reclaimed (hrep hpc hreply rfl) (hquiet hpc fun _ => id) (hbrought hpc hreply rfl)
  | claimedNone snapshot hpc hreply =>
    exact hstay hpc rfl subset_rfl (hrep hpc hreply rfl) (fun _ h => h.elim) rfl hnil
      fun _ h => h.elim
  | inspect snapshot es cursor hpc hreply =>
    exact hstay hpc rfl subset_rfl (hrep hpc hreply rfl) (fun _ h => h.elim) rfl
      (hbrought hpc hreply rfl) fun _ h => h.elim
  | inspected found infos hpc hreply =>
    exact h.prune (hin hpc rfl fun _ => rfl) (hquiet hpc fun _ => id) (hrest hpc rfl)
  | inspectedNone found hpc hreply =>
    exact h.reclaimed (hin hpc rfl fun _ => rfl) (hquiet hpc fun _ => id) (hrest hpc rfl)
  | pruned name dead found r hpc hreply =>
    exact h.prune (hin hpc rfl fun _ => rfl) (hquiet hpc fun _ => id) (hrest hpc rfl)
  -- `_backlog` and `_read`
  | collected snapshot es hpc hreply =>
    rw [Worker.collected]
    split
    · rename_i hnone
      refine hstay hpc rfl subset_rfl (hrep hpc hreply ?_) (fun _ h => h.elim) rfl hnil
        fun _ h => h.elim
      show idList (usable snapshot es) = []
      rw [hnone]
      rfl
    · exact hstay hpc rfl Finset.subset_union_left (hrep hpc hreply rfl) (fun _ h => h.elim) rfl
        (hbrought hpc hreply rfl) fun _ h => h.elim
  | collectedNone snapshot hpc hreply =>
    exact hstay hpc rfl subset_rfl (hrep hpc hreply rfl) (fun _ h => h.elim) rfl hnil
      fun _ h => h.elim
  | read es hpc hreply =>
    exact hstay hpc rfl Finset.subset_union_left (hrep hpc hreply rfl) (fun _ h => h.elim) rfl
      (hbrought hpc hreply rfl) fun _ h => h.elim
  | readNone hpc hreply =>
    exact hstay hpc rfl subset_rfl (hrep hpc hreply rfl) (fun _ h => h.elim) rfl hnil
      fun _ h => h.elim
  -- the batch, entry by entry: nothing is left out but what `skipped` allows
  | batchDone hpc =>
    exact hstay hpc rfl subset_rfl (hin hpc rfl fun _ => rfl) (fun _ h => h.elim) rfl hnil
      fun _ h => h.elim
  | skipNil fields rest hpc =>
    refine hstay hpc rfl subset_rfl (hin hpc rfl fun _ => rfl) (fun _ h => h.elim) rfl ?_
      fun _ h => h.elim
    exact List.Subset.trans (List.subset_cons_self _ _) (hrest hpc rfl)
  | dropDeleted entry fields rest hpc hempty =>
    refine ⟨_, rfl, h.dropCarried hpc fun fields' hreported => hdecode _ _ ?_⟩
    subst hreported
    obtain rfl : fields' = [] := hempty
    rfl
  | dropMalformed entry fields rest hpc hfields hjob =>
    refine ⟨_, rfl, h.dropCarried hpc fun fields' hreported => hdecode _ _ ?_⟩
    exact Option.some.inj hreported ▸ hjob
  | dropExpired entry fields rest job hpc hfields hjob hdeadline =>
    refine ⟨_, rfl, h.dropCarried hpc fun fields' hreported => ?_⟩
    obtain rfl := Option.some.inj hreported
    exact hjudge entry fields job rest rfl hpc hjob
  | acked entry rest r hpc hreply =>
    exact hstay hpc rfl subset_rfl (hin hpc rfl fun _ => rfl) (fun _ _ => by simp [hreply]) rfl
      (hrest hpc rfl) fun _ => id
  | ackedDeleted entry rest r hpc hreply =>
    exact hstay hpc rfl subset_rfl (hin hpc rfl fun _ => rfl) (fun _ _ => by simp [hreply]) rfl
      (hrest hpc rfl) fun _ h => h.elim
  | deleted entry rest r hpc hreply =>
    exact hstay hpc rfl subset_rfl (hin hpc rfl fun _ => rfl) (fun _ h => h.elim) rfl
      (hrest hpc rfl) fun _ h => h.elim
  -- a handler is started, with or without a wait for a slot, and watched until it is admitted
  | startUncapped entry fields rest job hpc hfields hjob hcap =>
    refine ⟨_, rfl, h.start (hin hpc rfl fun _ => rfl) (hquiet hpc fun _ => id) ?_⟩
    exact List.Subset.trans (List.subset_cons_self _ _) (hrest hpc rfl)
  | cap entry fields rest job m hpc hfields hjob hcap =>
    refine hstay hpc rfl subset_rfl (hin hpc rfl fun _ => rfl) (fun _ h => h.elim) rfl ?_
      fun _ h => h.elim
    exact List.Subset.trans (List.subset_cons_self _ _) (hrest hpc rfl)
  | startCapped entry jobId rest m hpc hcap hroom =>
    exact ⟨_, rfl, h.start (hin hpc rfl fun _ => rfl) (hquiet hpc fun _ => id) (hrest hpc rfl)⟩
  | capLeft entry jobId rest hpc hover => exact (hnever hover).elim
  | settled t task rest hpc htask hsettled hkept =>
    exact hstay hpc rfl subset_rfl (hin hpc rfl fun _ => rfl) (fun _ h => h.elim) rfl
      (hrest hpc rfl) fun _ h => h.elim
  -- on every other branch the loop leaves, or has been leaving
  | cancelled t task rest hpc htask hback => exact absurd hafter (Worker.not_leads_leadTo trivial)
  | abandon t task rest hpc htask hopen hover => exact (hnever hover).elim
  | waitCancelled t task rest hpc htask hsettled => exact absurd hafter Worker.not_leads_exit
  | waitAbandoned t task rest hpc htask hopen =>
    exact absurd hafter (Worker.not_leads_leadTo trivial)
  | failed rest hpc => exact absurd hafter Worker.not_leads_exit
  | abandoned t task raising rest hpc => exact absurd (hpc ▸ trivial) hstays
  | abandonedBack t task raising rest hpc => exact absurd (hpc ▸ trivial) hstays
  | abandonCancelled t raising rest hpc => exact absurd (hpc ▸ trivial) hstays
  | unwound t task rest hpc => exact absurd (hpc ▸ trivial) hstays
  | locked entries next hpc => exact absurd (hpc ▸ trivial) hstays
  | handed entries next r hpc => exact absurd (hpc ▸ trivial) hstays
  | handFailed entries next hpc => exact absurd (hpc ▸ trivial) hstays
  | handCancelled entries locked next hpc => exact absurd (hpc ▸ trivial) hstays
  | released r hpc => exact absurd (hpc ▸ trivial) hstays
  | releaseFailed hpc => exact absurd (hpc ▸ trivial) hstays

end Lead

section Steps

variable {queued skipped : ℕ → Fields → Prop} {starts : List ℕ}
  {stream stream' : StreamKey W Fields} {k k₁ k' : Worker W} {l : Lead W} {note : Note W}

/-- Nothing of this depends on the run loop or on the touch loop. -/
theorem InOrder.congr (h : InOrder queued skipped starts stream k l) (htaken : k'.taken = k.taken)
    (htasks : k'.tasks = k.tasks) : InOrder queued skipped starts stream k' l :=
  ⟨htaken ▸ h.pending, h.snapshot, h.sorted, h.ahead, h.descending, h.delivered, h.covered,
    h.carried, h.unread, htasks ▸ h.released, h.discarded⟩

/-- A task changes: only an entry that is not pending any more leaves `_taken`. -/
theorem InOrder.setTask {t : ℕ} {task task' : Task W}
    (h : InOrder queued skipped starts stream k l) (htask : k.tasks[t]? = some task)
    (htasks : k₁.tasks = k.tasks)
    (htaken : ∀ id ∈ k.taken, id ∈ k₁.taken ∨ id ∉ stream.pendingIds)
    (hreleased : (task'.phase = .finishing ∧ task'.reply ≠ none) ∨ task'.phase = .delaying →
      task'.entry ∉ stream.pendingIds) :
    InOrder queued skipped starts stream (k₁.setTask t task') l := by
  refine ⟨?_, h.snapshot, h.sorted, h.ahead, h.descending, h.delivered, h.covered, h.carried,
    h.unread, ?_, h.discarded⟩
  · intro id hid
    refine (h.pending id hid).imp_left fun hmem => ?_
    exact (htaken id hmem).resolve_right fun hnot => hnot hid
  · intro t₁ task₁ htask₁ hphase
    rcases Worker.getElem?_setTask htask₁ with ⟨rfl, rfl⟩ | ⟨-, hsame⟩
    · exact hreleased hphase
    · exact h.released t₁ task₁ (htasks ▸ hsame) hphase

/-- A task keeps the order, as long as it is not requeued and none of its commands fails. -/
theorem InOrder.taskStep {t : ℕ} {task : Task W} (h : InOrder queued skipped starts stream k l)
    (htask : k.tasks[t]? = some task) (hstep : TaskStep k t task note k')
    (hanswered : ∀ commands, note ≠ .lose commands)
    (hkept : ∀ task', k'.tasks[t]? = some task' → task.phase = .handler →
      task'.phase ≠ .delaying) : InOrder queued skipped starts stream k' l := by
  have hlt : t < k.tasks.length := (List.getElem?_eq_some_iff.mp htask).1
  have herase (hnot : task.entry ∉ stream.pendingIds) :
      ∀ id ∈ k.taken, id ∈ k.taken.erase task.entry ∨ id ∉ stream.pendingIds := by
    intro id hid
    by_cases heq : id = task.entry
    · exact Or.inr (heq ▸ hnot)
    · exact Or.inl (Finset.mem_erase.mpr ⟨heq, hid⟩)
  have hended {cancelled : Bool} {p : Prop}
      (hphase : (TaskPhase.ended cancelled = .finishing ∧ task.reply ≠ none) ∨
        TaskPhase.ended cancelled = .delaying) : p := by
    rcases hphase with ⟨hphase, -⟩ | hphase <;> cases hphase
  have hhanding {locked : Bool} {p : Prop}
      (hphase : (TaskPhase.handing locked = .finishing ∧ (none : Option (Reply W)) ≠ none) ∨
        TaskPhase.handing locked = .delaying) : p := by
    rcases hphase with ⟨hphase, -⟩ | hphase <;> cases hphase
  cases hstep with
  | admits => exact h.setTask htask rfl (fun _ => Or.inl) (h.released t task htask)
  | finish hphase =>
    refine h.setTask htask rfl (fun _ => Or.inl) ?_
    rintro (⟨-, hreply⟩ | hdelaying)
    · exact absurd rfl hreply
    · cases hdelaying
  | requeue hphase => exact absurd rfl (hkept _ (List.getElem?_set_self hlt) hphase)
  | handlerRaised cancelled hphase => exact h.setTask htask rfl (fun _ => Or.inl) hended
  | finished r hphase hreply =>
    have hnot := h.released t task htask (Or.inl ⟨hphase, by simp [hreply]⟩)
    exact h.setTask htask rfl (herase hnot) hended
  | finishFailed cancelled hphase => exact absurd rfl (hanswered _)
  | delayed hphase =>
    have hnot := h.released t task htask (Or.inr hphase)
    exact h.setTask htask rfl (herase hnot) hhanding
  | delayCancelled hphase => exact h.setTask htask rfl (fun _ => Or.inl) hended
  | locked hphase hfree => exact h.setTask htask rfl (fun _ => Or.inl) hhanding
  | handed r hphase hreply => exact h.setTask htask rfl (fun _ => Or.inl) hended
  | handFailed hphase => exact absurd rfl (hanswered _)
  | handCancelled locked hphase => exact absurd rfl (hanswered _)

/-- While a lead loop goes on leading, the run loop of its worker waits for it. -/
theorem Worker.Leads.runStep {w : W} (hleads : k.Leads) (hserial : Serial cfg w k)
    (hafter : k'.Leads) (hstep : RunStep k note k') : False := by
  obtain ⟨hgoing, l, hl, hheld, hstays⟩ := hleads
  obtain ⟨hgoing', l', hl', hheld', hstays'⟩ := hafter
  have hidle := hserial.alone l hl
  cases hstep with
  | ask hlead => exact absurd (hl.symm.trans hlead) (by simp)
  | won mutex hasking => exact absurd (hidle.symm.trans hasking) (by simp)
  | lost mutex hasking => exact absurd (hidle.symm.trans hasking) (by simp)
  | askFailed mutex reply hasking => exact absurd (hidle.symm.trans hasking) (by simp)
  | stop => cases hgoing'
  | loseMutex l₀ hlead =>
    obtain rfl := Option.some.inj hl'
    cases hheld'
  | clear hlead => exact absurd (hl.symm.trans hlead) (by simp)

/-- **The leader's worker keeps the order** as long as it leads, requeues nothing and no command
fails. -/
theorem InOrder.step [DecidableEq W] {w : W} (h : InOrder queued skipped starts stream k l)
    (hlead : k.lead = some l) (hleads : k.Leads) (hserial : Serial cfg w k)
    (hstep : WorkerStep cfg w k note k') (hafter : k'.Leads)
    (hanswered : ∀ commands, note ≠ .lose commands)
    (hkept : ∀ (t : ℕ) (task task' : Task W), k.tasks[t]? = some task →
      k'.tasks[t]? = some task' → task.phase = .handler → task'.phase ≠ .delaying)
    (hdecode : ∀ id fields, decode cfg.python fields = none → skipped id fields)
    (hjudge : ∀ id fields job rest, note = .judge id →
      l.pc = .batch ((some id, some fields) :: rest) → decode cfg.python fields = some job →
      skipped id fields) :
    ∃ l', k'.lead = some l' ∧
      InOrder queued skipped (note.starts.toList ++ starts) stream k' l' := by
  cases hstep with
  | lead hlead' hstep =>
    obtain rfl := Option.some.inj (hlead.symm.trans hlead')
    exact h.leadStep hlead hleads hstep hafter hdecode hjudge
  | @task t task _ _ htask hstep =>
    refine ⟨l, hstep.frame.lead.trans hlead, ?_⟩
    have horder := h.taskStep htask hstep hanswered fun task' => hkept t task task' htask
    cases hstep <;> exact horder
  | run hstep => exact (hleads.runStep hserial hafter hstep).elim
  | touch hstep => cases hstep <;> exact ⟨l, hlead, h.congr rfl rfl⟩

/-! ## The server -/

/-- The stream loses pending entries, and entries that have been delivered. -/
structure Narrows (stream stream' : StreamKey W Fields) : Prop where
  lastDelivered : stream'.lastDelivered = stream.lastDelivered
  pending : ∀ id ∈ stream'.pendingIds, id ∈ stream.pendingIds
  unread : ∀ e ∈ stream.entries, stream.lastDelivered < e.id → e ∈ stream'.entries

/-- What only shrinks the pending list narrows the stream. -/
theorem narrows_of_shrinks (h : stream.Shrinks stream') : Narrows stream stream' :=
  ⟨h.lastDelivered, fun _ hid => h.pending.subset hid, fun _ he _ => h.entries ▸ he⟩

/-- Deleting a delivered entry leaves the unread ones. -/
theorem Narrows.del {id : ℕ} (h : Narrows stream stream') (hle : id ≤ stream.lastDelivered) :
    Narrows stream (stream'.del id) := by
  refine ⟨h.lastDelivered, h.pending, fun e he hnew => ?_⟩
  refine List.mem_filter.mpr ⟨h.unread e he hnew, ?_⟩
  have hne : e.id ≠ id := by omega
  simpa using hne

/-- A command that reads nothing new narrows the stream, when it deletes what has been delivered. -/
theorem narrows_exec [DecidableEq W] {w : W} {s : Server W} {cmd : Command W}
    (hread : cmd ≠ .readNew) (hdel : ∀ id, cmd = .del id → id ≤ s.stream.lastDelivered)
    (hfinish : ∀ jobId id, cmd = .finish jobId id → id ≤ s.stream.lastDelivered) :
    Narrows s.stream (exec cfg w s cmd).1.stream := by
  have hrefl : Narrows s.stream s.stream := narrows_of_shrinks (.refl _)
  cases cmd with
  | readNew => exact absurd rfl hread
  | acquire mutex =>
    rw [exec]
    split <;> exact hrefl
  | release mutex =>
    rw [exec]
    split <;> exact hrefl
  | ensureGroup => exact narrows_of_shrinks StreamKey.shrinks_createGroup
  | time => exact hrefl
  | autoclaim start =>
    rw [exec]
    split
    · exact hrefl
    · rename_i hclaim
      exact narrows_of_shrinks (StreamKey.autoclaim_eq_some hclaim).1
  | infoConsumers =>
    rw [exec]
    split <;> exact hrefl
  | delConsumer name => exact narrows_of_shrinks StreamKey.shrinks_delConsumer
  | readOwn count =>
    rw [exec]
    split
    · exact hrefl
    · rename_i hread
      exact narrows_of_shrinks (StreamKey.readOwn_eq_some hread).1
  | ack entry => exact narrows_of_shrinks StreamKey.shrinks_ack
  | del entry => exact hrefl.del (hdel entry rfl)
  | handBack entries => exact narrows_of_shrinks StreamKey.shrinks_claim
  | touch entries => exact narrows_of_shrinks StreamKey.shrinks_claim
  | finish jobId entry =>
    exact (narrows_of_shrinks StreamKey.shrinks_ack).del (hfinish jobId entry rfl)

/-- The order survives a narrower stream. -/
theorem InOrder.narrows (h : InOrder queued skipped starts stream k l)
    (hn : Narrows stream stream') : InOrder queued skipped starts stream' k l := by
  refine ⟨?_, ?_, h.sorted, ?_, h.descending, ?_, ?_, h.carried, ?_, ?_, ?_⟩
  · exact fun id hid => h.pending id (hn.pending id hid)
  · exact fun snapshot hsome id hid => h.snapshot snapshot hsome id (hn.pending id hid)
  · rw [hn.lastDelivered]
    exact h.ahead
  · rw [hn.lastDelivered]
    exact h.delivered
  · rw [hn.lastDelivered]
    exact h.covered
  · intro id fields hqueued hnew
    rw [hn.lastDelivered] at hnew
    exact hn.unread _ (h.unread id fields hqueued hnew) hnew
  · exact fun t task htask hphase hid => h.released t task htask hphase (hn.pending _ hid)
  · rw [hn.lastDelivered]
    exact h.discarded

/-- A reply that brings nothing reaches the lead loop. -/
theorem InOrder.answerLead {r : Reply W} (h : InOrder queued skipped starts stream k l)
    (hreply : l.reply = none) (hnone : l.pc.arriving r = [])
    (hacked : ∀ id, l.pc.Acks id → id ∉ stream.pendingIds) :
    InOrder queued skipped starts stream (k.answer r .lead) { l with reply := some r } := by
  have hcoming : Lead.coming { l with reply := some r } = l.coming := by
    rw [Lead.coming_answered, hnone, Lead.coming, hreply]
    rfl
  have hbrought : ∀ id reported, (some id, reported) ∈ l.pc.brought r → False := by
    intro id reported hmem
    have hid : id ∈ l.pc.arriving r := List.mem_filterMap.mpr ⟨_, hmem, rfl⟩
    rw [hnone] at hid
    exact absurd hid List.not_mem_nil
  refine ⟨?_, h.snapshot, hcoming ▸ h.sorted, hcoming ▸ h.ahead, h.descending, h.delivered,
    hcoming ▸ h.covered, ?_, h.unread, h.released, h.discarded⟩
  · intro id hid
    rw [hcoming]
    rcases h.pending id hid with hmem | hmem | ⟨hack, -⟩
    · exact Or.inl hmem
    · exact Or.inr (Or.inl hmem)
    · exact absurd hid (hacked id hack)
  · intro id reported hmem
    rcases List.mem_append.mp hmem with hold | hnew
    · exact h.carried id reported (List.mem_append_left _ hold)
    · exact (hbrought id reported hnew).elim

/-- The next unread entry reaches the lead loop: nothing queued before it has been left behind. -/
theorem InOrder.answerRead [DecidableEq W] {w : W} {now : ℤ} {r : Reply W}
    (h : InOrder queued skipped starts stream k l) (hpc : l.pc = .reading) (hreply : l.reply = none)
    (hdelivered : ∀ id, k.Works id → id ≤ stream.lastDelivered)
    (hread : stream.readNew w 1 now = some (stream', stream.unread 1))
    (hr : r = .entries ((stream.unread 1).map fun e => (some e.id, some e.fields))) :
    InOrder queued skipped starts stream' (k.answer r .lead) { l with reply := some r } := by
  obtain ⟨-, hentries, -, hpending, hlast⟩ := StreamKey.readNew_eq_some hread
  have hnew : ∀ e ∈ stream.unread 1, stream.lastDelivered < e.id :=
    fun e he => (StreamKey.mem_of_mem_unread he).2
  obtain ⟨hmono, hle⟩ := le_lastIdOf (stream.sorted_unread 1) hnew
  rw [← hlast] at hmono hle
  have hold : l.coming = [] := by
    rw [Lead.coming, hpc, hreply]
    rfl
  have hcoming : Lead.coming { l with reply := some r } = (stream.unread 1).map StreamEntry.id := by
    rw [Lead.coming_answered, hpc, hr]
    exact idList_entries
  -- before the read the loop had nothing to start; now it has the new entry, newer than all others
  refine ⟨?_, ?_, ?_, ?_, h.descending, ?_, ?_, ?_, ?_, ?_, ?_⟩
  · intro id hid
    rw [hcoming]
    rw [hpending] at hid
    rcases List.mem_append.mp hid with hmem | hmem
    · refine (h.pending id hmem).imp_right ?_
      rintro (hnil | ⟨hack, -⟩)
      · rw [hold] at hnil
        exact absurd hnil List.not_mem_nil
      · rw [hpc] at hack
        exact hack.elim
    · exact Or.inr (Or.inl hmem)
  · intro snapshot hsome
    rw [hpc] at hsome
    cases hsome
  · rw [hcoming]
    exact List.pairwise_map.mpr (stream.sorted_unread 1)
  · intro id hid
    rw [hcoming] at hid
    obtain ⟨e, he, rfl⟩ := List.mem_map.mp hid
    refine ⟨hle e he, fun id' hid' => ?_⟩
    exact (h.delivered id' hid').trans_lt (hnew e he)
  · exact fun id hid => (h.delivered id hid).trans hmono
  · intro id fields hqueued hle'
    rw [hcoming]
    by_cases hlt : stream.lastDelivered < id
    · have hmem := StreamKey.mem_unread (h.unread id fields hqueued hlt) hlt (hlast ▸ hle')
      exact Or.inr (Or.inr (List.mem_map.mpr ⟨_, hmem, rfl⟩))
    · rcases h.covered id fields hqueued (Nat.not_lt.mp hlt) with hstart | hskip | hnil
      · exact Or.inl hstart
      · exact Or.inr (Or.inl hskip)
      · rw [hold] at hnil
        exact absurd hnil List.not_mem_nil
  · intro id reported hmem fields hqueued
    have hbrought : (some id, reported) ∈
        (stream.unread 1).map fun e => ((some e.id, some e.fields) : Delivery) := by
      rw [Lead.carried, hpc, hr] at hmem
      exact hmem
    obtain ⟨e, he, heq⟩ := List.mem_map.mp hbrought
    obtain ⟨hid, rfl⟩ := Prod.mk.inj heq
    obtain rfl := Option.some.inj hid
    have hsame := StreamKey.eq_of_id_eq (StreamKey.mem_of_mem_unread he).1
      (h.unread e.id fields hqueued (hnew e he)) rfl
    rw [hsame]
  · intro id fields hqueued hlt
    rw [hentries]
    exact h.unread id fields hqueued (hmono.trans_lt hlt)
  · intro t task htask hphase hid
    rw [hpending] at hid
    rcases List.mem_append.mp hid with hmem | hmem
    · exact h.released t task htask hphase hmem
    · obtain ⟨e, he, hid⟩ := List.mem_map.mp hmem
      have hworks : k.Works task.entry :=
        ⟨t, task, htask, rfl, Or.inr (hphase.imp_left fun hphase => hphase.1)⟩
      have hlt := hnew e he
      have hle' := hdelivered _ hworks
      omega
  · intro id hid
    rw [hpc] at hid
    exact hid.elim

/-- A reply reaches a task: where it answers a finish, the entry is not pending any more. -/
theorem InOrder.answerTask {t : ℕ} {r : Reply W} (h : InOrder queued skipped starts stream k l)
    (hfinished : ∀ task, k.tasks[t]? = some task → task.phase = .finishing →
      task.entry ∉ stream.pendingIds) :
    InOrder queued skipped starts stream (k.answer r (.task t)) l := by
  rcases Worker.answer_task (k := k) (r := r) (t := t) with heq | ⟨task, htask, heq⟩
  · rw [heq]
    exact h
  · rw [heq]
    refine h.setTask htask rfl (fun _ => Or.inl) ?_
    rintro (⟨hphase, -⟩ | hphase)
    · exact hfinished task htask hphase
    · exact h.released t task htask (Or.inr hphase)

/-- An append adds an unread entry. -/
theorem InOrder.append {queued' : ℕ → Fields → Prop} {id : ℕ} {fields : Fields}
    (h : InOrder queued skipped starts stream k l) (hnew : stream.lastId < id)
    (hqueued : ∀ id' fields', queued' id' fields' →
      queued id' fields' ∨ id' = id ∧ fields' = fields) :
    InOrder queued' skipped starts (stream.add id fields hnew) k l := by
  have hlt : stream.lastDelivered < id := stream.lastDelivered_le_lastId.trans_lt hnew
  refine ⟨h.pending, h.snapshot, h.sorted, h.ahead, h.descending, h.delivered, ?_, ?_, ?_,
    h.released, h.discarded⟩
  · intro id' fields' hmem hle
    rcases hqueued id' fields' hmem with hold | ⟨rfl, -⟩
    · exact h.covered id' fields' hold hle
    · exact absurd hlt (Nat.not_lt.mpr hle)
  · intro id' reported hmem fields' hmem'
    rcases hqueued id' fields' hmem' with hold | ⟨rfl, -⟩
    · exact h.carried id' reported hmem fields' hold
    · have hle := (h.ahead id' (l.mem_coming_of_carried hmem)).1
      exact absurd hlt (Nat.not_lt.mpr hle)
  · intro id' fields' hmem hlt'
    rcases hqueued id' fields' hmem with hold | ⟨rfl, rfl⟩
    · exact List.mem_append_left _ (h.unread id' fields' hold hlt')
    · exact List.mem_append_right _ (List.mem_singleton.mpr rfl)

/-- The commands of the coroutines other than the lead loop. -/
theorem Worker.command_cases {co : Co} {cmd : Command W} (hco : co ≠ .lead)
    (hcmd : k.command co = some cmd) : (∃ mutex, cmd = .acquire mutex) ∨
      (∃ jobId id, cmd = .finish jobId id) ∨ (∃ ids, cmd = .handBack ids) ∨
      ∃ ids, cmd = .touch ids := by
  cases co with
  | lead => exact absurd rfl hco
  | run =>
    rw [Worker.command] at hcmd
    split at hcmd
    · exact Or.inl ⟨_, (Option.some.inj hcmd).symm⟩
    · cases hcmd
  | task t =>
    obtain ⟨task, -, htask⟩ := Option.bind_eq_some_iff.mp hcmd
    rcases Task.command_eq htask with rfl | rfl
    · exact Or.inr (Or.inl ⟨_, _, rfl⟩)
    · exact Or.inr (Or.inr (Or.inl ⟨_, rfl⟩))
  | touch =>
    rw [Worker.command] at hcmd
    split at hcmd
    · exact Or.inr (Or.inr (Or.inr ⟨_, (Option.some.inj hcmd).symm⟩))
    · cases hcmd

end Steps

end RedisSemaphore.Dispatch
