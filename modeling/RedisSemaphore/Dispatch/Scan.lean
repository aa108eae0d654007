import RedisSemaphore.Dispatch.Order

/-!
# From a scan to the start of an entry

`_reclaim` reads one page of the pending list and `_backlog` one page of the worker's own part of
it. Both pages are in the order of the stream, so an entry that is on one comes after everything
older, and the lead loop gets to it before it reads anything new. What may be in the way is on the
page before the entry, or makes the page end before it.
-/

namespace RedisSemaphore.Dispatch

open Redis

variable {W : Type*} {π : Type}

/-! ## What is in the way of an entry -/

/-- The delivery is of an entry that has been started, or cannot be: `S` are the started entries. -/
def Old (cfg : Config W π) (S : ℕ → Prop) (d : Delivery) : Prop :=
  ∀ id fields job, d = (some id, some fields) → decode cfg.python fields = some job → S id

/-- No older entry that is pending has still to be started. -/
def Behind (cfg : Config W π) (S : ℕ → Prop) (stream : StreamKey W Fields) (id : ℕ) : Prop :=
  ∀ id' ∈ stream.pendingIds, id' < id → Old cfg S (some id', stream.fieldsOf id')

/-- One page of `XAUTOCLAIM` gets past the pending entries before `id`: it looks at a thousand
entries, of which a hundred may be idle or deleted. -/
def Near (cfg : Config W π) (s : Server W) (id : ℕ) : Prop :=
  (s.stream.pendingBefore id).length < 1000 ∧
  (s.stream.pendingBefore id).countP (fun p => (cfg.reclaimIdle : ℤ) ≤ s.now - p.since ∨
    (cfg.drops && !(s.stream.fieldsOf p.id).isSome) = true) < 100

/-- Nothing but entries of the snapshot is on the first page of `XAUTOCLAIM`. -/
def Bare [DecidableEq W] (cfg : Config W π) (w : W) (snapshot : Finset ℕ) (s : Server W) : Prop :=
  ∀ stream es cursor,
    s.stream.autoclaim cfg.drops w cfg.reclaimIdle 0 100 s.now = some (stream, es, cursor) →
      usable snapshot es = []

/-- One page of the backlog gets past the pending entries before `id` that are not in the
snapshot. -/
def Listed [DecidableEq W] (w : W) (snapshot : Finset ℕ) (s : Server W) (id : ℕ) : Prop :=
  (s.stream.pendingBefore id).countP (fun p => p.consumer = w ∧ p.id ∉ snapshot) < 100

/-- In a batch the entry comes before everything still to be started. -/
def Front (cfg : Config W π) (S : ℕ → Prop) (id : ℕ) (ds : List Delivery) : Prop :=
  ∃ before fields after, ds = before ++ (some id, fields) :: after ∧ ∀ d ∈ before, Old cfg S d

/-- The place `_hand_back` gives an entry, and later. -/
def Aged (cfg : Config W π) (w : W) (now : ℤ) (p : PendingEntry W) : Prop :=
  p.consumer = w ∧ (cfg.reclaimIdle : ℤ) ≤ now - p.since

/-! ## Batches -/

section Batch

variable {cfg : Config W π} {S : ℕ → Prop} {id : ℕ} {d : Delivery} {ds : List Delivery}

/-- The entry, or a delivery that is in no one's way, is at the head. -/
theorem Front.pop (h : Front cfg S id (d :: ds)) :
    d.1 = some id ∨ (Old cfg S d ∧ Front cfg S id ds) := by
  obtain ⟨before, fields, after, heq, hold⟩ := h
  cases before with
  | nil =>
    obtain ⟨rfl, -⟩ := List.cons.inj heq
    exact Or.inl rfl
  | cons d' before =>
    obtain ⟨rfl, rfl⟩ := List.cons.inj heq
    exact Or.inr ⟨hold _ List.mem_cons_self, before, fields, after, rfl,
      fun d hd => hold d (List.mem_cons_of_mem _ hd)⟩

/-- An empty batch has no front. -/
theorem not_front_nil : ¬ Front cfg S id [] := by
  rintro ⟨before, fields, after, heq, -⟩
  simp at heq

/-- The filter keeps the entry. -/
theorem Front.usable {snapshot : Finset ℕ} (h : Front cfg S id ds) (hid : id ∉ snapshot) :
    Front cfg S id (usable snapshot ds) := by
  obtain ⟨before, fields, after, rfl, hold⟩ := h
  refine ⟨Dispatch.usable snapshot before, fields, Dispatch.usable snapshot after, ?_, ?_⟩
  · rw [Dispatch.usable, List.filter_append, List.filter_cons_of_pos (by simpa using hid)]
    rfl
  · exact fun d hd => hold d (List.mem_of_mem_filter hd)

/-- A report of pending entries, in their order, with the entry among them. -/
theorem front_map {stream : StreamKey W Fields} {ids : List ℕ} {f : ℕ → Delivery}
    {fields : Option Fields} (hids : ids.Sublist stream.pendingIds) (hid : id ∈ ids)
    (hentry : f id = (some id, fields))
    (hold : ∀ id' ∈ stream.pendingIds, id' < id → Old cfg S (f id')) :
    Front cfg S id (ids.map f) := by
  obtain ⟨before, after, rfl⟩ := List.append_of_mem hid
  have hsorted := stream.sorted_pendingIds.sublist hids
  refine ⟨before.map f, fields, after.map f, by simp [hentry], ?_⟩
  intro d hd
  obtain ⟨id', hid', rfl⟩ := List.mem_map.mp hd
  have hlt : id' < id := (List.pairwise_append.mp hsorted).2.2 id' hid' id List.mem_cons_self
  exact hold id' (hids.subset (List.mem_append_left _ hid')) hlt

end Batch

/-! ## The server -/

section Serve

variable {cfg : Config W π} {S : ℕ → Prop} {w : W} {id : ℕ} {P : PendingEntry W → Prop}
  {stream stream' : StreamKey W Fields}

/-- Only newer entries become pending. -/
theorem Behind.advances (h : Behind cfg S stream id) (hadvances : stream.Advances stream')
    (hid : id ∈ stream.pendingIds) : Behind cfg S stream' id := by
  intro id' hid' hlt id'' fields job heq hjob
  obtain ⟨hsame, hfields⟩ := Prod.mk.inj heq
  obtain rfl := Option.some.inj hsame
  have hstored := hadvances.entries _ (StreamKey.fieldsOf_eq_some.mp hfields)
  have hold : id' ∈ stream.pendingIds := by
    refine (hadvances.pending id' hid').resolve_right fun hnew => ?_
    have hle := StreamKey.le_lastDelivered hid
    omega
  refine h id' hold hlt id' fields job ?_ hjob
  rw [StreamKey.fieldsOf_eq_some.mpr hstored]

/-- An append goes behind everything. -/
theorem Behind.add {id₁ : ℕ} {fields₁ : Fields} (h : Behind cfg S stream id)
    (hnew : stream.lastId < id₁) : Behind cfg S (stream.add id₁ fields₁ hnew) id := by
  intro id' hid' hlt id'' fields job heq hjob
  obtain ⟨hsame, hfields⟩ := Prod.mk.inj heq
  obtain rfl := Option.some.inj hsame
  have hpending : id' ∈ stream.pendingIds := hid'
  refine h id' hpending hlt id' fields job ?_ hjob
  rcases List.mem_append.mp (StreamKey.fieldsOf_eq_some.mp hfields) with hold | hadded
  · rw [StreamKey.fieldsOf_eq_some.mpr hold]
  · obtain ⟨rfl, rfl⟩ := StreamEntry.mk.inj (List.mem_singleton.mp hadded)
    have hle := (StreamKey.le_lastDelivered hpending).trans stream.lastDelivered_le_lastId
    omega

/-- The command leaves the entry pending, with `P` of its place. -/
def Command.Leaves (cfg : Config W π) (w : W) (now : ℤ) (id : ℕ) (P : PendingEntry W → Prop) :
    Command W → Prop
  | .ack entry => entry ≠ id
  | .del entry => entry ≠ id
  | .finish _ entry => entry ≠ id
  | .handBack entries => id ∈ entries → P ⟨id, w, now - cfg.reclaimIdle⟩
  | .touch entries => id ∈ entries → P ⟨id, w, now⟩
  | .delConsumer name => ∀ p, P p → p.consumer ≠ name
  | .autoclaim _ => False
  | _ => True

/-- A command that leaves the entry in its place. -/
theorem pends_exec [DecidableEq W] {s : Server W} {cmd : Command W} (h : s.stream.Pends id P)
    (hcmd : cmd.Leaves cfg w s.now id P) : (exec cfg w s cmd).1.stream.Pends id P := by
  cases cmd with
  | ack entry => exact h.ack hcmd
  | del entry => exact h.del hcmd
  | finish jobId entry => exact (h.ack hcmd).del hcmd
  | handBack entries => exact h.claim (fun _ _ hP => hP) hcmd
  | touch entries => exact h.claim (fun _ _ hP => hP) hcmd
  | delConsumer name => exact h.delConsumer hcmd
  | autoclaim start => exact hcmd.elim
  | ensureGroup => exact h.createGroup
  | time => exact h
  | acquire mutex =>
    rw [exec]
    split <;> exact h
  | release mutex =>
    rw [exec]
    split <;> exact h
  | infoConsumers =>
    rw [exec]
    split <;> exact h
  | readOwn count =>
    rw [exec]
    split
    · exact h
    · rename_i hread
      exact h.readOwn hread
  | readNew =>
    rw [exec]
    split
    · exact h
    · rename_i hread
      exact h.readNew hread

/-- What a claim reports of an old entry is old. -/
theorem old_report (h : Old cfg S (some id, stream.fieldsOf id)) :
    Old cfg S (stream.report id) := by
  intro id' fields job heq hjob
  refine h id' fields job ?_ hjob
  rw [StreamKey.report] at heq
  split at heq
  · rename_i fields' hfields'
    rw [hfields']
    exact heq
  · cases heq

/-- A scan from the beginning finds the entry, or nothing. -/
theorem reclaim_exec [DecidableEq W] {s : Server W} {snapshot : Finset ℕ}
    (haged : s.stream.Pends id (Aged cfg w s.now)) (hbehind : Behind cfg S s.stream id)
    (hid : id ∉ snapshot) (hreach : Near cfg s id ∨ Bare cfg w snapshot s) :
    ∃ es cursor, (exec cfg w s (.autoclaim 0)).2 = .claimed es cursor ∧
      (Front cfg S id (usable snapshot es) ∨ (usable snapshot es = [] ∧
        (exec cfg w s (.autoclaim 0)).1.stream.Pends id (Aged cfg w s.now))) := by
  have hlive := haged.live
  obtain ⟨g, p, post, hg, rfl, hp, hsplit⟩ := haged.split
  obtain ⟨fields, hstored⟩ := haged.stored
  cases hclaim : s.stream.autoclaim cfg.drops w cfg.reclaimIdle 0 100 s.now with
  | none => exact absurd hclaim (StreamKey.autoclaim_ne_none hg)
  | some reply =>
    obtain ⟨stream', es, cursor⟩ := reply
    obtain ⟨hentries, hes, g', hg', hpending'⟩ := StreamKey.autoclaim_zero hg hclaim
    refine ⟨es, cursor, by simp only [exec, hclaim], ?_⟩
    -- the page claims the entry, or does not get that far and has nothing to offer that is not in
    -- the snapshot
    by_cases hmem : p.id ∈ (StreamKey.scan (fun id => (s.stream.fieldsOf id).isSome) cfg.drops w
        cfg.reclaimIdle s.now (10 * 100) 100 g.pending).claimed
    · left
      rw [hes]
      have hids : (StreamKey.scan (fun id => (s.stream.fieldsOf id).isSome) cfg.drops w
          cfg.reclaimIdle s.now (10 * 100) 100 g.pending).claimed.Sublist s.stream.pendingIds := by
        rw [StreamKey.pendingIds_of_group hg]
        exact StreamKey.scan_sublist.2
      have hentry : s.stream.report p.id = (some p.id, some fields) := by
        rw [StreamKey.report, StreamKey.fieldsOf_eq_some.mpr hstored]
      have hfront := front_map hids hmem hentry fun id' hid' hlt =>
        old_report (hbehind id' hid' hlt)
      exact hfront.usable hid
    · right
      rcases hreach with ⟨hattempts, hcount⟩ | hbare
      · rw [hsplit] at hmem
        exact absurd (StreamKey.mem_claimed_scan hattempts hcount hlive hp.2) hmem
      · refine ⟨hbare stream' es cursor hclaim, ?_⟩
        have hexec : (exec cfg w s (.autoclaim 0)).1.stream = stream' := by
          simp only [exec, hclaim]
        rw [hexec]
        refine ⟨⟨fields, hentries ▸ hstored⟩, g', hg', p, ?_, rfl, hp⟩
        rw [hpending']
        refine StreamKey.mem_pending_scan ?_ hlive hmem
        rw [hsplit]
        exact List.mem_append_right _ List.mem_cons_self

/-- Pending entries that are in a snapshot are no more than its entries. -/
theorem countP_snapshot_le {ps : List (PendingEntry W)} (h : (ps.map PendingEntry.id).Nodup)
    (snapshot : Finset ℕ) : ps.countP (fun p => p.id ∈ snapshot) ≤ snapshot.card := by
  have hnodup : ((ps.filter (fun p => p.id ∈ snapshot)).map PendingEntry.id).Nodup :=
    h.sublist (List.filter_sublist.map PendingEntry.id)
  have hsubset : (ps.filter (fun p => p.id ∈ snapshot)).map PendingEntry.id ⊆
      snapshot.toList := by
    intro id' hid'
    obtain ⟨p, hp, rfl⟩ := List.mem_map.mp hid'
    simpa using (List.mem_filter.mp hp).2
  have hle := (List.subperm_of_subset hnodup hsubset).length_le
  rwa [List.length_map, ← List.countP_eq_length_filter, Finset.length_toList] at hle

/-- The worker's own entries before `id` fit into the page with it: those in the snapshot are no
more than its entries. -/
theorem Listed.length_lt [DecidableEq W] {s : Server W} {snapshot : Finset ℕ}
    (h : Listed w snapshot s id) :
    ((s.stream.pendingBefore id).filter (·.consumer = w)).length < snapshot.card + 100 := by
  set own := (s.stream.pendingBefore id).filter (·.consumer = w) with hown
  have htaken : own.countP (fun p => p.id ∈ snapshot) ≤ snapshot.card := by
    have hsub : own.Sublist (s.stream.pendingBefore id) := List.filter_sublist
    exact countP_snapshot_le (s.stream.nodup_pendingIds.sublist
      ((hsub.map PendingEntry.id).trans StreamKey.pendingBefore_sublist)) snapshot
  have hothers : own.countP (fun p => ¬ p.id ∈ snapshot) < 100 := by
    rw [hown, List.countP_filter]
    refine lt_of_le_of_lt (le_of_eq (List.countP_congr fun p _ => ?_)) h
    simp [and_comm]
  rw [List.length_eq_countP_add_countP (fun p : PendingEntry W => decide (p.id ∈ snapshot))]
  simp only [decide_not, decide_eq_true_eq] at hothers ⊢
  omega

/-- A look at the backlog finds the entry. -/
theorem backlog_exec [DecidableEq W] {s : Server W} {snapshot : Finset ℕ}
    (haged : s.stream.Pends id (Aged cfg w s.now)) (hbehind : Behind cfg S s.stream id)
    (hid : id ∉ snapshot) (hlisted : Listed w snapshot s id) :
    ∃ es, (exec cfg w s (.readOwn (snapshot.card + 100))).2 = .entries es ∧
      Front cfg S id (usable snapshot es) := by
  have hlength := hlisted.length_lt
  obtain ⟨g, p, post, hg, rfl, ⟨hconsumer, -⟩, hsplit⟩ := haged.split
  obtain ⟨stream', hread⟩ : ∃ stream', s.stream.readOwn w (snapshot.card + 100) s.now =
      some (stream', ((g.pending.filter (·.consumer = w)).take (snapshot.card + 100)).map
        fun q => (q.id, s.stream.fieldsOf q.id)) := StreamKey.readOwn_of_group hg
  -- the read has room for the snapshot and a hundred more, so it reaches the entry
  have hmem : p ∈ (g.pending.filter (·.consumer = w)).take (snapshot.card + 100) := by
    obtain ⟨n, hn⟩ := Nat.exists_eq_add_of_lt hlength
    rw [hsplit, List.filter_append, List.filter_cons_of_pos (by simpa using hconsumer), hn,
      List.take_append, Nat.add_assoc, Nat.add_sub_cancel_left, List.take_succ_cons]
    exact List.mem_append_right _ List.mem_cons_self
  have hids : (((g.pending.filter (·.consumer = w)).take (snapshot.card + 100)).map
      PendingEntry.id).Sublist s.stream.pendingIds := by
    rw [StreamKey.pendingIds_of_group hg]
    exact ((List.take_sublist _ _).trans List.filter_sublist).map _
  have hreply : (exec cfg w s (.readOwn (snapshot.card + 100))).2 =
      .entries ((((g.pending.filter (·.consumer = w)).take (snapshot.card + 100)).map
        fun q => (q.id, s.stream.fieldsOf q.id)).map fun e => (some e.1, e.2)) := by
    simp only [exec, hread]
  refine ⟨_, hreply, ?_⟩
  have hfront : Front cfg S p.id ((((g.pending.filter (·.consumer = w)).take
      (snapshot.card + 100)).map PendingEntry.id).map fun id => (some id, s.stream.fieldsOf id)) :=
    front_map hids (List.mem_map_of_mem hmem) rfl hbehind
  rw [List.map_map] at hfront ⊢
  exact hfront.usable hid

end Serve

/-! ## The lead loop -/

/-- The loop is in a batch whose rest meets `Q`. -/
def LeadPc.Deals (Q : List Delivery → Prop) (S : ℕ → Prop) (id : ℕ) : LeadPc W → Prop
  | .batch rest => Q rest
  | .acking _ _ rest => Q rest
  | .deleting _ rest => Q rest
  | .waiting _ rest => Q rest
  | .capping entry _ rest => entry = id ∨ (S entry ∧ Q rest)
  | _ => False

/-- The loop scans from the beginning with a snapshot that lacks the entry, and has found nothing
yet. -/
def Lead.Seeks (w : W) (id : ℕ) (l : Lead W) : Prop :=
  match l.pc with
  | .timing snapshot => id ∉ snapshot ∧ l.cursor = 0
  | .claiming snapshot => id ∉ snapshot ∧ l.cursor = 0 ∧
      ∀ r, l.reply = some r → ∃ es cursor, r = .claimed es cursor ∧ usable snapshot es = []
  | .inspecting found => found = []
  | .pruning dead found => found = [] ∧ w ∉ dead
  | .collecting snapshot => id ∉ snapshot ∧ l.reply = none
  | _ => False

/-- The loop has found a batch that meets `Q`. -/
def Lead.Finds (Q : List Delivery → Prop) (S : ℕ → Prop) (id : ℕ) (l : Lead W) : Prop :=
  match l.pc with
  | .claiming snapshot => ∃ es cursor, l.reply = some (.claimed es cursor) ∧ Q (usable snapshot es)
  | .collecting snapshot => ∃ es, l.reply = some (.entries es) ∧ Q (usable snapshot es)
  | .inspecting found => Q found
  | .pruning _ found => Q found
  | pc => pc.Deals Q S id

/-- Nothing the worker sends makes the entry look busy again. -/
structure Worker.Untouched (id : ℕ) (k : Worker W) : Prop where
  taken : id ∉ k.taken
  touch : ∀ entries reply, k.touch = .claiming entries reply → id ∉ entries

/-- A segment of a lead loop that goes through a batch: it starts nothing new, and takes nothing
else. -/
structure Dealt (Q : List Delivery → Prop) (S : ℕ → Prop) (id : ℕ) (k : Worker W) (l : Lead W)
    (note : Note W) (k' : Worker W) : Prop where
  starts : ∀ id', note.starts = some id' → S id'
  taken : id ∉ k.taken → id ∉ k'.taken
  touch : k'.touch = k.touch
  reclaimNow : k'.reclaimNow = k.reclaimNow
  lead : ∃ l', k'.lead = some l' ∧ (l'.pc.Deals Q S id ∨ (l.pc = .batch [] ∧ l'.pc = .top))

section Lead

variable [DecidableEq W] {cfg : Config W π} {S : ℕ → Prop} {w : W} {id : ℕ} {k k' : Worker W}
  {l : Lead W} {note : Note W}

/-- The segments between the head of one delivery and the next. -/
theorem LeadStep.deals {Q : List Delivery → Prop} (h : LeadStep cfg w k l note k')
    (hdeals : l.pc.Deals Q S id)
    (hpop : ∀ d ds, Q (d :: ds) → d.1 = some id ∨ (Old cfg S d ∧ Q ds)) (hafter : k'.Leads)
    (hanswered : ∀ commands, note ≠ .lose commands) (hwaits : note ≠ .start id)
    (hkeeps : ∀ l', k'.lead = some l' → ¬ l'.pc.Discards id) : Dealt Q S id k l note k' := by
  have hgoto {k₁ : Worker W} {l₁ : Lead W} {pc : LeadPc W}
      (hstarts : ∀ id', note.starts = some id' → S id') (htaken : id ∉ k.taken → id ∉ k₁.taken)
      (htouch : k₁.touch = k.touch) (hnow : k₁.reclaimNow = k.reclaimNow)
      (hpc : pc.Deals Q S id) : Dealt Q S id k l note (k₁.leadTo l₁ pc) :=
    ⟨hstarts, htaken, htouch, hnow, _, rfl, Or.inl hpc⟩
  have hnone {id' : ℕ} {p : Prop} (h : (none : Option ℕ) = some id') : p := by cases h
  -- the head of the batch is dropped, which is not the entry by `hkept`
  have hdrop {entry : ℕ} {thenDel : Bool} {rest : List Delivery} {fields : Option Fields}
      (hpc : l.pc = .batch ((some entry, fields) :: rest))
      (hkept : ¬ (LeadPc.acking entry thenDel rest : LeadPc W).Discards id) : Q rest := by
    rw [hpc] at hdeals
    rcases hpop _ _ hdeals with hid | ⟨-, hrest⟩
    · exact absurd (Option.some.inj hid) hkept
    · exact hrest
  have herase {entry : ℕ} (hid : id ∉ k.taken) : id ∉ k.taken.erase entry :=
    fun hmem => hid (Finset.mem_of_mem_erase hmem)
  -- the head of the batch is started, which is an older one: `hwaits` says that the entry itself
  -- is not
  have hstart {entry : ℕ} {jobId : String} {rest : List Delivery} (hnote : note = .start entry)
      (hS : entry ≠ id → S entry ∧ Q rest) :
      Dealt Q S id k l note (k.start l entry jobId rest) := by
    have hne : entry ≠ id := by
      rintro rfl
      exact hwaits hnote
    obtain ⟨hentry, hrest⟩ := hS hne
    refine hgoto ?_ ?_ rfl rfl hrest
    · rintro id' hid'
      rw [hnote] at hid'
      obtain rfl := Option.some.inj hid'
      exact hentry
    · intro hid hmem
      rcases Finset.mem_insert.mp hmem with rfl | hold
      · exact hne rfl
      · exact hid hold
  cases h with
  | batchDone hpc => exact ⟨fun _ => hnone, fun hid => hid, rfl, rfl, _, rfl, Or.inr ⟨hpc, rfl⟩⟩
  | skipNil fields rest hpc =>
    rw [hpc] at hdeals
    rcases hpop _ _ hdeals with hid | ⟨-, hrest⟩
    · cases hid
    · exact hgoto (fun _ => hnone) (fun hid => hid) rfl rfl hrest
  | dropDeleted entry fields rest hpc hempty =>
    exact hgoto (fun _ => hnone) herase rfl rfl (hdrop hpc (hkeeps _ rfl))
  | dropMalformed entry fields rest hpc hfields hjob =>
    exact hgoto (fun _ => hnone) herase rfl rfl (hdrop hpc (hkeeps _ rfl))
  | dropExpired entry fields rest job hpc hfields hjob hdeadline =>
    exact hgoto (fun _ => hnone) herase rfl rfl (hdrop hpc (hkeeps _ rfl))
  | acked entry rest r hpc hreply =>
    rw [hpc] at hdeals
    exact hgoto (fun _ => hnone) (fun hid => hid) rfl rfl hdeals
  | ackedDeleted entry rest r hpc hreply =>
    rw [hpc] at hdeals
    exact hgoto (fun _ => hnone) (fun hid => hid) rfl rfl hdeals
  | deleted entry rest r hpc hreply =>
    rw [hpc] at hdeals
    exact hgoto (fun _ => hnone) (fun hid => hid) rfl rfl hdeals
  | startUncapped entry fields rest job hpc hfields hjob hcap =>
    refine hstart rfl fun hne => ?_
    rw [hpc] at hdeals
    obtain ⟨hold, hrest⟩ := (hpop _ _ hdeals).resolve_left fun h => hne (Option.some.inj h)
    exact ⟨hold entry fields job rfl hjob, hrest⟩
  | cap entry fields rest job m hpc hfields hjob hcap =>
    refine hgoto (fun _ => hnone) (fun hid => hid) rfl rfl ?_
    rw [hpc] at hdeals
    rcases hpop _ _ hdeals with hid | ⟨hold, hrest⟩
    · exact Or.inl (Option.some.inj hid)
    · exact Or.inr ⟨hold entry fields job rfl hjob, hrest⟩
  | startCapped entry jobId rest m hpc hcap hroom =>
    rw [hpc] at hdeals
    exact hstart rfl hdeals.resolve_left
  | settled t task rest hpc htask hsettled hstays =>
    rw [hpc] at hdeals
    exact hgoto (fun _ => hnone) (fun hid => hid) rfl rfl hdeals
  -- leaving the lead is excluded by `hafter`
  | capLeft | cancelled | abandon | waitAbandoned =>
    exact absurd hafter (Worker.not_leads_leadTo trivial)
  | waitCancelled => exact absurd hafter Worker.not_leads_exit
  | failed => exact absurd rfl (hanswered _)
  | _ => simp_all [LeadPc.Deals]

omit [DecidableEq W] in
/-- A scan that has found nothing looks at the backlog. -/
theorem seeks_reclaimed {l : Lead W} (huntouched : k.Untouched id) :
    (k.reclaimed l []).Untouched id ∧ ∃ l', (k.reclaimed l []).lead = some l' ∧ l'.Seeks w id := by
  rw [Worker.reclaimed, if_pos rfl]
  exact ⟨⟨huntouched.taken, huntouched.touch⟩, _, rfl, huntouched.taken, rfl⟩

omit [DecidableEq W] in
/-- Removing dead consumers goes on with the search, if none of them is the worker itself. -/
theorem seeks_prune {l : Lead W} {dead : List W} (huntouched : k.Untouched id) (hdead : w ∉ dead) :
    (k.prune l [] dead).Untouched id ∧ ∃ l', (k.prune l [] dead).lead = some l' ∧
      l'.Seeks w id := by
  cases dead with
  | nil => exact seeks_reclaimed huntouched
  | cons name dead => exact ⟨⟨huntouched.taken, huntouched.touch⟩, _, rfl, rfl, hdead⟩

/-- The segments of a scan that has found nothing yet. -/
theorem LeadStep.seeks (h : LeadStep cfg w k l note k') (hseeks : l.Seeks w id)
    (huntouched : k.Untouched id) (hanswered : ∀ commands, note ≠ .lose commands) :
    note.starts = none ∧ k'.Untouched id ∧ ∃ l', k'.lead = some l' ∧ l'.Seeks w id := by
  cases h with
  | timed snapshot r hpc hreply =>
    simp only [Lead.Seeks, hpc] at hseeks
    refine ⟨rfl, ⟨huntouched.taken, huntouched.touch⟩, _, rfl, hseeks.1, hseeks.2, ?_⟩
    intro r hr
    cases hr
  | claimed snapshot es cursor hpc hreply =>
    simp only [Lead.Seeks, hpc] at hseeks
    obtain ⟨es', cursor', heq, hnil⟩ := hseeks.2.2 _ hreply
    obtain ⟨rfl, -⟩ := Reply.claimed.inj heq
    rw [hnil]
    exact ⟨rfl, seeks_reclaimed huntouched⟩
  | claimedNone snapshot hpc hreply =>
    simp only [Lead.Seeks, hpc] at hseeks
    obtain ⟨es', cursor', heq, -⟩ := hseeks.2.2 _ hreply
    cases heq
  | inspect snapshot es cursor hpc hreply =>
    simp only [Lead.Seeks, hpc] at hseeks
    obtain ⟨es', cursor', heq, hnil⟩ := hseeks.2.2 _ hreply
    obtain ⟨rfl, -⟩ := Reply.claimed.inj heq
    exact ⟨rfl, ⟨huntouched.taken, huntouched.touch⟩, _, rfl, hnil⟩
  | inspected found infos hpc hreply =>
    simp only [Lead.Seeks, hpc] at hseeks
    subst hseeks
    refine ⟨rfl, seeks_prune huntouched fun hmem => ?_⟩
    obtain ⟨info, hinfo, hname⟩ := List.mem_map.mp hmem
    have hdead := (List.mem_filter.mp hinfo).2
    simp [hname] at hdead
  | inspectedNone found hpc hreply =>
    simp only [Lead.Seeks, hpc] at hseeks
    subst hseeks
    exact ⟨rfl, seeks_reclaimed huntouched⟩
  | pruned name dead found r hpc hreply =>
    simp only [Lead.Seeks, hpc] at hseeks
    obtain ⟨rfl, hdead⟩ := hseeks
    exact ⟨rfl, seeks_prune huntouched fun hmem => hdead (List.mem_cons_of_mem _ hmem)⟩
  -- the backlog has not been read: the reply is still to come
  | collected snapshot es hpc hreply =>
    simp only [Lead.Seeks, hpc] at hseeks
    exact absurd (hseeks.2.symm.trans hreply) (by simp)
  | collectedNone snapshot hpc hreply =>
    simp only [Lead.Seeks, hpc] at hseeks
    exact absurd (hseeks.2.symm.trans hreply) (by simp)
  | failed => exact absurd rfl (hanswered _)
  | _ => simp_all [Lead.Seeks]

omit [DecidableEq W] in
/-- A loop that deals with the entry has found it. -/
theorem finds_of_deals {Q : List Delivery → Prop} (h : l.pc.Deals Q S id) : l.Finds Q S id := by
  unfold Lead.Finds
  split <;> simp_all [LeadPc.Deals]

omit [DecidableEq W] in
/-- What a reclaim has found becomes the batch. -/
theorem finds_reclaimed {found : List Delivery} {l : Lead W} (h : Front cfg S id found) :
    ∃ l', (k.reclaimed l found).lead = some l' ∧ l'.Finds (Front cfg S id) S id := by
  rw [Worker.reclaimed, if_neg]
  · exact ⟨_, rfl, h⟩
  · rintro rfl
    exact not_front_nil h

omit [DecidableEq W] in
/-- So has one that removes dead consumers first. -/
theorem finds_prune {found : List Delivery} {dead : List W} {l : Lead W}
    (h : Front cfg S id found) :
    ∃ l', (k.prune l found dead).lead = some l' ∧ l'.Finds (Front cfg S id) S id := by
  cases dead with
  | nil => exact finds_reclaimed h
  | cons name dead => exact ⟨_, rfl, h⟩

/-- The segments from a scan that has found the entry to the start of it. -/
theorem LeadStep.finds (h : LeadStep cfg w k l note k') (hfinds : l.Finds (Front cfg S id) S id)
    (hafter : k'.Leads) (hanswered : ∀ commands, note ≠ .lose commands)
    (hwaits : note ≠ .start id) (hkeeps : ∀ l', k'.lead = some l' → ¬ l'.pc.Discards id) :
    (∀ id', note.starts = some id' → S id') ∧
      ∃ l', k'.lead = some l' ∧ l'.Finds (Front cfg S id) S id := by
  -- in the batch already, or on the way into it
  by_cases hdeals : l.pc.Deals (Front cfg S id) S id
  · have hdealt := h.deals hdeals (fun d ds => Front.pop) hafter hanswered hwaits hkeeps
    obtain ⟨l', hl', hpc | ⟨hdone, -⟩⟩ := hdealt.lead
    · exact ⟨hdealt.starts, l', hl', finds_of_deals hpc⟩
    · rw [hdone] at hdeals
      exact absurd hdeals not_front_nil
  · have hnone : ∀ id', (none : Option ℕ) = some id' → S id' := by
      intro id' hid'
      cases hid'
    cases h with
    | claimed snapshot es cursor hpc hreply =>
      simp only [Lead.Finds, hpc] at hfinds
      obtain ⟨es', cursor', heq, hfront⟩ := hfinds
      obtain ⟨rfl, -⟩ := Reply.claimed.inj (Option.some.inj (hreply.symm.trans heq))
      exact ⟨hnone, finds_reclaimed hfront⟩
    | claimedNone snapshot hpc hreply =>
      simp only [Lead.Finds, hpc] at hfinds
      obtain ⟨es', cursor', heq, -⟩ := hfinds
      cases hreply.symm.trans heq
    | inspect snapshot es cursor hpc hreply =>
      simp only [Lead.Finds, hpc] at hfinds
      obtain ⟨es', cursor', heq, hfront⟩ := hfinds
      obtain ⟨rfl, -⟩ := Reply.claimed.inj (Option.some.inj (hreply.symm.trans heq))
      exact ⟨hnone, _, rfl, hfront⟩
    | inspected found infos hpc hreply =>
      simp only [Lead.Finds, hpc] at hfinds
      exact ⟨hnone, finds_prune hfinds⟩
    | inspectedNone found hpc hreply =>
      simp only [Lead.Finds, hpc] at hfinds
      exact ⟨hnone, finds_reclaimed hfinds⟩
    | pruned name dead found r hpc hreply =>
      simp only [Lead.Finds, hpc] at hfinds
      exact ⟨hnone, finds_prune hfinds⟩
    | collected snapshot es hpc hreply =>
      simp only [Lead.Finds, hpc] at hfinds
      obtain ⟨es', heq, hfront⟩ := hfinds
      obtain rfl := Reply.entries.inj (Option.some.inj (hreply.symm.trans heq))
      rw [Worker.collected, if_neg]
      · exact ⟨hnone, _, rfl, hfront⟩
      · intro hnil
        exact not_front_nil (hnil ▸ hfront)
    | collectedNone snapshot hpc hreply =>
      simp only [Lead.Finds, hpc] at hfinds
      obtain ⟨es', heq, -⟩ := hfinds
      cases hreply.symm.trans heq
    | failed => exact absurd rfl (hanswered _)
    | _ => simp_all [Lead.Finds, LeadPc.Deals]

end Lead

end RedisSemaphore.Dispatch
