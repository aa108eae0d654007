import RedisSemaphore.Dispatch.Admission
import RedisSemaphore.Dispatch.Shutdown

/-!
# Leadership goes back

A lock that the worker has on the server is known to one of its coroutines: to the election whose
acquire was granted and is about to be answered, or to a lead loop, which gives it back on every way
out. The shutdown waits for the lead loops. It does not wait for an election: a cancellation that
reaches `run()` while the acquire is in flight leaves it at once, and nobody releases what Redis has
granted. Short of that no lock outlives its run.
-/

namespace RedisSemaphore.Dispatch

open Redis Transition

variable {κ W : Type*} {π : Type}

/-! ## The lead loop holds on -/

/-- The lead loop goes on under its Mutex, and has sent nothing else that is answered. -/
def Worker.HoldsOn (k : Worker W) (l : Lead W) : Prop :=
  ∃ l', k.lead = some l' ∧ l'.mutex = l.mutex ∧ l'.held = true ∧ l'.reply = none

section HoldsOn

variable {k k' : Worker W} {l l₁ : Lead W} {note : Note W} {rest : List Delivery}

/-- A move of the program counter keeps Mutex and lock. -/
theorem holdsOn_leadTo {pc : LeadPc W} (hmutex : l₁.mutex = l.mutex) (hheld : l₁.held = true) :
    (k.leadTo l₁ pc).HoldsOn l :=
  ⟨_, rfl, hmutex, hheld, rfl⟩

/-- The way out keeps the lock until its release. -/
theorem holdsOn_exit (hmutex : l₁.mutex = l.mutex) (hheld : l₁.held = true) :
    (k.exit l₁ rest).HoldsOn l := by
  rw [Worker.exit]
  dsimp only
  rw [if_pos hheld]
  exact holdsOn_leadTo hmutex hheld

/-- So does the rest of a batch. -/
theorem holdsOn_goOn {next : Next} (hmutex : l₁.mutex = l.mutex) (hheld : l₁.held = true) :
    (k.goOn l₁ next).HoldsOn l := by
  cases next with
  | exit rest => exact holdsOn_exit hmutex hheld
  | handRest rest =>
    rw [Worker.goOn, Worker.handRest]
    split
    · exact holdsOn_exit hmutex hheld
    · exact holdsOn_leadTo hmutex hheld

/-- So does a page. -/
theorem holdsOn_reclaimed {found : List Delivery} (hmutex : l₁.mutex = l.mutex)
    (hheld : l₁.held = true) : (k.reclaimed l₁ found).HoldsOn l := by
  rw [Worker.reclaimed]
  split <;> exact holdsOn_leadTo hmutex hheld

/-- So does the removal of dead consumers. -/
theorem holdsOn_prune {found : List Delivery} {dead : List W} (hmutex : l₁.mutex = l.mutex)
    (hheld : l₁.held = true) : (k.prune l₁ found dead).HoldsOn l := by
  cases dead with
  | nil => exact holdsOn_reclaimed hmutex hheld
  | cons name dead => exact holdsOn_leadTo hmutex hheld

/-- A lead loop ends only through its release. -/
theorem LeadStep.holdsOn [DecidableEq W] {cfg : Config W π} {me : W}
    (h : LeadStep cfg me k l note k') (hheld : l.held = true) (hpc : l.pc ≠ .releasing) :
    k'.HoldsOn l := by
  cases h with
  | ensured ret r hpc' hreply => cases ret <;> exact holdsOn_leadTo rfl hheld
  | claimed snapshot es cursor hpc' hreply => exact holdsOn_reclaimed rfl hheld
  | inspected found infos hpc' hreply => exact holdsOn_prune rfl hheld
  | inspectedNone found hpc' hreply => exact holdsOn_reclaimed rfl hheld
  | pruned name dead found r hpc' hreply => exact holdsOn_prune rfl hheld
  | collected snapshot es hpc' hreply =>
    rw [Worker.collected]
    split <;> exact holdsOn_leadTo rfl hheld
  | leave | waitCancelled | unwound | handCancelled | failed => exact holdsOn_exit rfl hheld
  | abandoned | handed | handFailed => exact holdsOn_goOn rfl hheld
  | released r hpc' hreply => exact absurd hpc' hpc
  | releaseFailed hpc' => exact absurd hpc' hpc
  | _ => exact holdsOn_leadTo rfl hheld

end HoldsOn

/-! ## The server's side -/

section Exec

variable [DecidableEq W] {cfg : Config W π} {w : W} {s : Server W} {cmd : Command W}

/-- Commands other than an acquire give no lock away. -/
theorem lock_of_exec {owner : W × ℕ} (h : (exec cfg w s cmd).1.lock = some owner)
    (hacquire : ∀ m, cmd ≠ .acquire m) : s.lock = some owner := by
  cases cmd with
  | acquire m => exact absurd rfl (hacquire m)
  | release m =>
    rw [exec] at h
    dsimp only at h
    split at h
    · cases h
    · exact h
  | _ =>
    rw [exec] at h
    first
    | exact h
    | split at h <;> exact h

/-- A release leaves another lock at most. -/
theorem lock_of_release {owner : W × ℕ} {m : ℕ}
    (h : (exec cfg w s (.release m)).1.lock = some owner) : owner ≠ (w, m) := by
  rw [exec] at h
  dsimp only at h
  split at h
  · cases h
  · rename_i hne
    rintro rfl
    exact hne h

/-- An acquire that leaves the lock to its Mutex was granted. -/
theorem granted_of_exec {m n : ℕ} (h : (exec cfg w s (.acquire m)).1.lock = some (w, n)) :
    s.lock = some (w, n) ∨ n = m ∧ (exec cfg w s (.acquire m)).2 = .granted true := by
  rw [exec] at h ⊢
  split at h
  · right
    obtain ⟨-, rfl⟩ := Prod.mk.inj (Option.some.inj h)
    exact ⟨rfl, rfl⟩
  · exact Or.inl h

/-- An acquire of a lock that is taken changes nothing. -/
theorem lock_of_denied {owner : W × ℕ} {m : ℕ}
    (h : (exec cfg w s (.acquire m)).1.lock = some owner) (htaken : s.lock ≠ none) :
    s.lock = some owner := by
  rw [exec] at h
  split at h
  · rename_i hfree
    exact absurd hfree htaken
  · exact h

/-- A Mutex that has the lock is granted it. -/
theorem granted_of_lock {m : ℕ} (h : s.lock = some (w, m)) :
    (exec cfg w s (.acquire m)).2 = .granted true := by
  rw [exec, h]
  simp

end Exec

namespace Lifecycle

/-! ## What is known of the locks -/

/-- Every release executes before its lead loop goes on, and no lock expires or is believed lost. -/
def Reliable (me : W) (s : World κ W) : Event κ W → Prop
  | .lead q _ => ∀ l, (s.worker.parts q).lead = some l → l.pc = .releasing → l.reply ≠ none
  | .loseMutex _ => False
  | .elsewhere q server => ∀ n, (s.server q).lock = some (me, n) → server.lock = some (me, n)
  | _ => True

/-- The worker is in an election whose acquire was granted. -/
def DispatchWorker.Granted (d : DispatchWorker κ W) : Prop :=
  ∃ q n rest, d.pc = .asking q n rest (some (.granted true))

/-- No election is given up, by a cancellation or for want of an answer, whose acquire is granted:
neither was it granted before, nor is it when it executes later. -/
def Heard (s : World κ W) : Event κ W → Prop
  | .cancel => ¬ s.worker.Granted
  | .failed _ => ¬ s.worker.Granted
  | .late q (.acquire _) => (s.server q).lock ≠ none
  | _ => True

/-- A coroutine of the worker knows that its Mutex `n` has the lock of `q`. -/
def DispatchWorker.Knows (d : DispatchWorker κ W) (q : κ) (n : ℕ) : Prop :=
  (∃ rest, d.pc = .asking q n rest (some (.granted true))) ∨
    ∃ l, (d.parts q).lead = some l ∧ l.mutex = n ∧ (l.pc = .releasing → l.reply = none)

/-- **The invariant.** Every lock of the worker is known to one of its coroutines. -/
structure Known (me : W) (s : World κ W) : Prop where
  lock : ∀ q n, (s.server q).lock = some (me, n) → s.worker.Knows q n
  held : ∀ q l, (s.worker.parts q).lead = some l → l.held = true
  apart : ∀ q n rest reply, s.worker.pc = .asking q n rest reply →
    ∀ q' ∈ q :: rest, (s.worker.parts q').lead = none

section Known

variable {settings : Settings κ W π} {me : W} {s s' : World κ W} {d : DispatchWorker κ W}
  {q : κ} {l : Lead W} {n : ℕ} {server : κ → Server W} {given stray : List (κ × Command W)}

/-- A lock on a queue with a lead loop is that of the lead loop. -/
theorem Known.lead_of_lock (h : Known me s) (hlead : (s.worker.parts q).lead = some l)
    (hlock : (s.server q).lock = some (me, n)) :
    l.mutex = n ∧ (l.pc = .releasing → l.reply = none) := by
  rcases h.lock q n hlock with ⟨rest, hasking⟩ | ⟨l', hl', hknown⟩
  · rw [h.apart q n rest _ hasking q List.mem_cons_self] at hlead
    cases hlead
  · obtain rfl := Option.some.inj (hlead.symm.trans hl')
    exact hknown

/-- Where the lead loops stay, no lock is added and no granted election is left, every lock stays
known. -/
theorem Known.move (h : Known me s) (hlead : ∀ q, (d.parts q).lead = (s.worker.parts q).lead)
    (hlock : ∀ q n, (server q).lock = some (me, n) → (s.server q).lock = some (me, n))
    (hpc : d.pc = s.worker.pc ∨ ¬ s.worker.Granted ∧
      ∀ q n rest reply, d.pc = .asking q n rest reply →
        ∀ q' ∈ q :: rest, (s.worker.parts q').lead = none) : Known me ⟨d, server, stray⟩ := by
  constructor
  · intro q n hq
    rcases h.lock q n (hlock q n hq) with ⟨rest, hasking⟩ | hled
    · rcases hpc with hsame | ⟨hnone, -⟩
      · exact Or.inl ⟨rest, hsame.trans hasking⟩
      · exact absurd ⟨q, n, rest, hasking⟩ hnone
    · exact Or.inr ((hlead q).symm ▸ hled)
  · intro q l hl
    exact h.held q l ((hlead q).symm.trans hl)
  · intro q n rest reply hasking q' hq'
    refine (hlead q').trans ?_
    rcases hpc with hsame | ⟨-, hapart⟩
    · exact h.apart q n rest reply (hsame.symm.trans hasking) q' hq'
    · exact hapart q n rest reply hasking q' hq'

/-- The queues an election tries have no lead loop. -/
theorem lead_of_mem_free {d : DispatchWorker κ W} (hkept : ∀ q, (d.parts q).Kept)
    (h : q ∈ d.dropDone.free settings) : (d.parts q).lead = none := by
  have hnot : ((d.parts q).leading && (d.parts q).lead.isSome) = false := by
    unfold DispatchWorker.free at h
    split at h
    · cases h
    · exact (Bool.not_eq_true' _).mp (List.mem_filter.mp h).2
  by_contra hlead
  obtain ⟨l, hl⟩ := Option.ne_none_iff_exists'.mp hlead
  rw [(hkept q).leading l hl, hl] at hnot
  cases hnot

/-- From the head of its loop `run()` asks only for queues that have no lead loop. -/
theorem Known.head {d₀ : DispatchWorker κ W} (h : Known me s)
    (hkept : ∀ q, (s.worker.parts q).Kept) (hparts : d₀.parts = s.worker.parts)
    (hpc : ∀ q n rest reply, s.worker.pc ≠ .asking q n rest reply)
    (hhead : Head settings d₀ d) : Known me ⟨d, s.server, stray⟩ := by
  have hlead : ∀ q, (d.parts q).lead = (s.worker.parts q).lead := by
    intro q
    rw [← hparts]
    cases hhead <;> rfl
  refine h.move hlead (fun _ _ => id) (Or.inr ⟨fun ⟨q, n, rest, hasking⟩ => ?_, ?_⟩)
  · exact hpc q n rest _ hasking
  · cases hhead with
    | leave hstop => nofun
    | none hgo hfree => nofun
    | ask q rest hgo horder =>
      intro q₀ n rest₀ reply hasking q' hq'
      obtain ⟨rfl, -, rfl, -⟩ := RunPc.asking.inj hasking
      rw [← hparts]
      exact lead_of_mem_free (hparts ▸ hkept) (horder.mem_iff.mp hq')

/-- No lead loop, task or touch loop sends an acquire. -/
theorem command_view_ne_acquire {co : Co} : (d.view q).command co ≠ some (.acquire n) := by
  intro hcmd
  cases co with
  | run => cases hcmd
  | touch => cases hcmd
  | lead =>
    obtain ⟨l, -, hl⟩ := Option.bind_eq_some_iff.mp hcmd
    unfold Lead.command at hl
    split at hl <;> simp at hl
  | task t =>
    obtain ⟨task, -, htask⟩ := Option.bind_eq_some_iff.mp hcmd
    rcases Task.command_eq htask with heq | heq <;> cases heq

variable [DecidableEq κ]

/-- Where one lead loop moves, every lock stays known if the loop still knows its own. -/
theorem Known.setLead {p : Part W} (h : Known me s)
    (hparts : d.parts = (s.worker.setPart q p).parts) (hpc : d.pc = s.worker.pc)
    (hlead : (s.worker.parts q).lead = some l) (hheld : ∀ l', p.lead = some l' → l'.held = true)
    (hserver : ∀ q' ≠ q, server q' = s.server q')
    (hlock : ∀ n, (server q).lock = some (me, n) →
      ∃ l', p.lead = some l' ∧ l'.mutex = n ∧ (l'.pc = .releasing → l'.reply = none)) :
    Known me ⟨d, server, stray⟩ := by
  have hself : d.parts q = p := by
    rw [hparts, DispatchWorker.parts_setPart_self]
  have hother : ∀ q' ≠ q, d.parts q' = s.worker.parts q' := fun q' hne => by
    rw [hparts, DispatchWorker.parts_setPart_of_ne hne]
  constructor
  · intro q' n hq'
    rcases eq_or_ne q' q with rfl | hne
    · obtain ⟨l', hl', hknown⟩ := hlock n hq'
      exact Or.inr ⟨l', by rw [hself, hl'], hknown⟩
    · have hold : (s.server q').lock = some (me, n) := hserver q' hne ▸ hq'
      rcases h.lock q' n hold with ⟨rest, hasking⟩ | hled
      · exact Or.inl ⟨rest, hpc.trans hasking⟩
      · exact Or.inr (by rwa [hother q' hne])
  · intro q' l' hl'
    rcases eq_or_ne q' q with rfl | hne
    · exact hheld l' (by rwa [← hself])
    · exact h.held q' l' (by rwa [← hother q' hne])
  · intro q' n rest reply hasking q'' hq''
    have hnone := h.apart q' n rest reply (hpc.symm.trans hasking) q'' hq''
    have hne : q'' ≠ q := by
      rintro rfl
      rw [hlead] at hnone
      cases hnone
    rwa [hother q'' hne]

/-! ### Steps of the worker -/

/-- The lead loop of a won election knows its lock. -/
theorem Known.won {rest : List κ} (h : Known me s)
    (hasking : s.worker.pc = .asking q n rest (some (.granted true))) :
    Known me
      ⟨{ s.worker.setPart q
          { s.worker.parts q with
            leading := true
            lead := some ⟨n, true, 0, .ensuring .top, none⟩ } with
          pc := .pausing }, s.server, stray⟩ := by
  have hnone : (s.worker.parts q).lead = none := h.apart q n rest _ hasking q List.mem_cons_self
  constructor
  · intro q' m hlock
    refine Or.inr ?_
    rcases h.lock q' m hlock with ⟨rest', hasking'⟩ | ⟨l, hl, hknown⟩
    · obtain ⟨rfl, rfl, -, -⟩ := RunPc.asking.inj (hasking.symm.trans hasking')
      exact ⟨_, congrArg Part.lead DispatchWorker.parts_setPart_self, rfl, nofun⟩
    · have hne : q' ≠ q := by
        rintro rfl
        rw [hnone] at hl
        cases hl
      refine ⟨l, ?_, hknown⟩
      exact (congrArg Part.lead (DispatchWorker.parts_setPart_of_ne hne)).trans hl
  · intro q' l hl
    rcases eq_or_ne q' q with rfl | hne
    · rw [DispatchWorker.parts_setPart_self] at hl
      obtain rfl := Option.some.inj hl
      rfl
    · rw [DispatchWorker.parts_setPart_of_ne hne] at hl
      exact h.held q' l hl
  · nofun

/-- `run()` leaves no lock behind that it has heard of. -/
theorem Known.run {e : Event κ W} (h : Known me s) (hkept : ∀ q, (s.worker.parts q).Kept)
    (hheard : Heard s e) (hact : RunAct settings s.worker e given d) :
    Known me ⟨d, s.server, stray⟩ := by
  have hleave : ∀ d : DispatchWorker κ W, (∀ q, (d.parts q).lead = (s.worker.parts q).lead) →
      ¬ s.worker.Granted → (∀ q n rest reply, d.pc ≠ .asking q n rest reply) →
      Known me ⟨d, s.server, stray⟩ := fun d hlead hgranted hpc =>
    h.move hlead (fun _ _ => id)
      (Or.inr ⟨hgranted, fun q n rest reply hasking => absurd hasking (hpc q n rest reply)⟩)
  have hfail : ∀ error q, ((s.worker.failWith error).parts q).lead = (s.worker.parts q).lead := by
    intro error q
    unfold DispatchWorker.failWith
    split
    · split <;> rfl
    · rfl
  cases hact with
  | start hidle hrunning hhead =>
    have hparts : DispatchWorker.parts
        { s.worker with running := true, touch := some .asleep } = s.worker.parts := rfl
    exact h.head hkept hparts (by simp [hidle]) hhead
  | woken hpausing hhead => exact h.head hkept rfl (by simp [hpausing]) hhead
  | again hrunning => exact h.move (fun _ => rfl) (fun _ _ => id) (Or.inl rfl)
  | stop => exact h.move (fun _ => rfl) (fun _ _ => id) (Or.inl rfl)
  | won q mutex rest hasking => exact h.won hasking
  | lost q q' mutex rest hasking =>
    refine h.move (fun _ => rfl) (fun _ _ => id)
      (Or.inr ⟨by simp [DispatchWorker.Granted, hasking], ?_⟩)
    intro q₀ n rest₀ reply hasking' q'' hq''
    obtain ⟨rfl, -, rfl, -⟩ := RunPc.asking.inj hasking'
    exact h.apart q mutex _ _ hasking q'' (List.mem_cons_of_mem _ hq'')
  | lostLast q mutex hasking =>
    exact hleave _ (fun _ => rfl) (by simp [DispatchWorker.Granted, hasking]) nofun
  | refused q mutex rest error hasking =>
    exact hleave _ (hfail error) (by simp [DispatchWorker.Granted, hasking]) nofun
  | failed q mutex rest reply error hasking => exact hleave _ (hfail error) hheard nofun
  | cancelAsking q mutex rest reply hasking => exact hleave _ (fun _ => rfl) hheard nofun
  | cancelPausing hpausing => exact hleave _ (fun _ => rfl) hheard nofun
  | cancelClosing stage raising cancelled hclosing => exact hleave _ (fun _ => rfl) hheard nofun
  | leadsOver raising cancelled hclosing | handlersOver raising cancelled hclosing
  | cleaned raising cancelled hclosing | ended raising cancelled hclosing =>
    exact hleave _ (fun _ => rfl) (by simp [DispatchWorker.Granted, hclosing]) nofun

variable [DecidableEq W]

/-- The lead loops know their locks until they have released them. -/
theorem Known.lead {e : Event κ W} (h : Known me s) (hreliable : Reliable me s e)
    (hact : LeadAct settings me s.worker e given d) : Known me ⟨d, s.server, stray⟩ := by
  cases hact with
  | loseMutex q l hlead => exact hreliable.elim
  | step q l note k forgotten hlead hstep hforgotten =>
    have hgoes : l.pc ≠ .releasing → ∃ l', k.lead = some l' ∧ l'.mutex = l.mutex ∧
        l'.held = true ∧ l'.reply = none :=
      hstep.holdsOn (h.held q l hlead)
    refine h.setLead (p := (s.worker.parts q).afterLead note k) rfl rfl hlead (fun l' hl' => ?_)
      (fun _ _ => rfl) fun n hlock => ?_
    · rw [Part.lead_afterLead] at hl'
      by_cases hpc : l.pc = .releasing
      · rw [hstep.ends_of_releasing hpc] at hl'
        cases hl'
      · obtain ⟨l'', hl'', -, hheld, -⟩ := hgoes hpc
        obtain rfl := Option.some.inj (hl'.symm.trans hl'')
        exact hheld
    · obtain ⟨rfl, hknown⟩ := h.lead_of_lock hlead hlock
      have hpc : l.pc ≠ .releasing := fun hpc => hreliable l hlead hpc (hknown hpc)
      obtain ⟨l', hl', hmutex, -, hreply⟩ := hgoes hpc
      exact ⟨l', Part.lead_afterLead.trans hl', hmutex, fun _ => hreply⟩
  | failed q l cmd rest error hlead hcmd hunwinds hfatal =>
    have hstep : LeadStep settings.toConfig me (s.worker.view q) l (.lose l.command.toList)
        ((s.worker.view q).exit l rest) := .failed rest hunwinds
    have hpc : l.pc ≠ .releasing := by
      intro hpc
      rw [hpc] at hunwinds
      cases hunwinds
    obtain ⟨l', hl', hmutex, hheld, hreply⟩ := hstep.holdsOn (h.held q l hlead) hpc
    rw [DispatchWorker.failWith, if_pos hfatal]
    refine h.setLead rfl rfl hlead (fun l'' hl'' => ?_) (fun _ _ => rfl) fun n hlock => ?_
    · rw [Part.lead_afterLead] at hl''
      obtain rfl := Option.some.inj (hl''.symm.trans hl')
      exact hheld
    · obtain ⟨rfl, -⟩ := h.lead_of_lock hlead hlock
      exact ⟨l', Part.lead_afterLead.trans hl', hmutex, fun _ => hreply⟩

/-! ### Commands -/

/-- The acquire of an election executes. -/
theorem Known.ask {rest : List κ} {reply : Option (Reply W)} (h : Known me s)
    (hasking : s.worker.pc = .asking q n rest reply) :
    Known me
      { s.serve settings me q (.acquire n) with
        worker :=
          { s.worker with
            pc := .asking q n rest
              (some (Dispatch.exec settings.toConfig me (s.server q) (.acquire n)).2) } } := by
  constructor
  · intro q' m hlock
    rcases eq_or_ne q' q with rfl | hne
    · replace hlock : (Function.update s.server q' _ q').lock = some (me, m) := hlock
      rw [Function.update_self] at hlock
      rcases granted_of_exec hlock with hold | ⟨rfl, hgranted⟩
      · rcases h.lock q' m hold with ⟨rest', hasking'⟩ | hled
        · -- the acquire of the same election, sent again
          obtain ⟨-, rfl, -, -⟩ := RunPc.asking.inj (hasking.symm.trans hasking')
          exact Or.inl ⟨rest, by rw [granted_of_lock hold]⟩
        · exact Or.inr hled
      · exact Or.inl ⟨rest, by rw [hgranted]⟩
    · replace hlock : (Function.update s.server q _ q').lock = some (me, m) := hlock
      rw [Function.update_of_ne hne] at hlock
      rcases h.lock q' m hlock with ⟨rest', hasking'⟩ | hled
      · obtain ⟨rfl, -⟩ := RunPc.asking.inj (hasking.symm.trans hasking')
        exact absurd rfl hne
      · exact Or.inr hled
  · exact h.held
  · intro q₀ m rest₀ reply₀ hasking'
    obtain ⟨rfl, -, rfl, -⟩ := RunPc.asking.inj hasking'
    exact h.apart q n rest reply hasking

/-- A command that is no acquire gives the worker no lock. -/
theorem lock_of_serve {cmd : Command W} (hcmd : ∀ n, cmd ≠ .acquire n) (q' : κ) (n : ℕ)
    (h : ((s.serve settings me q cmd).server q').lock = some (me, n)) :
    (s.server q').lock = some (me, n) := by
  replace h : (Function.update s.server q _ q').lock = some (me, n) := h
  rcases eq_or_ne q' q with rfl | hne
  · rw [Function.update_self] at h
    exact lock_of_exec h hcmd
  · rwa [Function.update_of_ne hne] at h

/-- A command of a lead loop or a task executes. -/
theorem Known.execPart {co : Co} {cmd : Command W} (h : Known me s)
    (hcmd : (s.worker.view q).command co = some cmd) {r : Reply W} :
    Known me
      { s.serve settings me q cmd with
        worker :=
          s.worker.setPart q
            { s.worker.parts q with
              lead := ((s.worker.view q).answer r co).lead
              tasks := ((s.worker.view q).answer r co).tasks } } := by
  have hacquire : ∀ n, cmd ≠ .acquire n := by
    rintro n rfl
    exact command_view_ne_acquire hcmd
  by_cases hco : co = .lead
  · subst hco
    obtain ⟨l, hl, hcommand⟩ := Option.bind_eq_some_iff.mp hcmd
    have hlead : ((s.worker.view q).answer r .lead).lead = some { l with reply := some r } :=
      Worker.lead_answer hl
    refine h.setLead rfl rfl hl (fun l' hl' => ?_)
      (fun q' hne => Function.update_of_ne hne ..) fun n hlock => ?_
    · obtain rfl := Option.some.inj (hl'.symm.trans hlead)
      exact h.held q l hl
    · obtain ⟨rfl, -⟩ := h.lead_of_lock hl (lock_of_serve hacquire q n hlock)
      refine ⟨_, hlead, rfl, fun hpc => ?_⟩
      -- a lead loop at its release has sent it, and the lock is gone
      have hrelease : l.command = some (.release l.mutex) := by
        unfold Lead.command
        rw [show l.pc = .releasing from hpc]
      obtain rfl := Option.some.inj (hcommand.symm.trans hrelease)
      replace hlock : (Function.update s.server q _ q).lock = some (me, l.mutex) := hlock
      rw [Function.update_self] at hlock
      exact absurd rfl (lock_of_release hlock)
  · refine h.move (fun q' => ?_) (lock_of_serve hacquire) (Or.inl rfl)
    rcases eq_or_ne q' q with rfl | hne
    · rw [DispatchWorker.parts_setPart_self]
      exact Worker.answer_lead hco
    · rw [DispatchWorker.parts_setPart_of_ne hne]

/-- **Every step** that is reliable and gives up no granted election keeps every lock known. -/
theorem Known.step {e : Event κ W} (h : Known me s) (hkept : ∀ q, (s.worker.parts q).Kept)
    (hreliable : Reliable me s e) (hheard : Heard s e) (hstep : Step settings me s e s') :
    Known me s' := by
  cases hstep with
  | act hact =>
    cases hact with
    | run hact => exact h.run hkept hheard hact
    | lead hact => exact h.lead hreliable hact
    | side hact => exact h.move hact.lead (fun _ _ => id) (Or.inl hact.frame.1)
  | execAsk q mutex rest reply hasking => exact h.ask hasking
  | execPart q co cmd hcmd => exact h.execPart hcmd
  | execTouch q entries rest reply hclaiming =>
    exact h.move (fun _ => rfl) (lock_of_serve nofun) (Or.inl rfl)
  | late q cmd hstray =>
    refine h.move (fun _ => rfl) (fun q' n hlock => ?_) (Or.inl rfl)
    cases cmd with
    | acquire m =>
      replace hlock : (Function.update s.server q _ q').lock = some (me, n) := hlock
      rcases eq_or_ne q' q with rfl | hne
      · rw [Function.update_self] at hlock
        exact lock_of_denied hlock hheard
      · rwa [Function.update_of_ne hne] at hlock
    | _ =>
      refine lock_of_serve (fun m hm => ?_) q' n hlock
      cases hm
  | elsewhere q server hown =>
    refine h.move (fun _ => rfl) (fun q' n hlock => ?_) (Or.inl rfl)
    rcases eq_or_ne q' q with rfl | hne
    · rw [Function.update_self] at hlock
      exact hown n hlock
    · rwa [Function.update_of_ne hne] at hlock

/-- The invariant holds in every run that is reliable and hears of the locks it is granted. -/
theorem known_of_run {tr : List (Event κ W)}
    (h : ((system settings me).restrict fun s e => Reliable me s e ∧ Heard s e).Run tr s) :
    Known me s := by
  have hboth : (system settings me).Run tr s ∧ Known me s := by
    refine System.Run.invariant
      (M := (system settings me).restrict fun s e => Reliable me s e ∧ Heard s e)
      (I := fun tr s => (system settings me).Run tr s ∧ Known me s) ?_ ?_ h
    · rintro s rfl
      exact ⟨.start rfl, nofun, nofun, nofun⟩
    · rintro tr s e s' - ⟨hrun, hknown⟩ ⟨⟨hreliable, hheard⟩, hstep⟩
      exact ⟨hrun.step hstep, hknown.step (tidy_of_run hrun).kept hreliable hheard hstep⟩
  exact hboth.2

/-- **Leadership goes back**, as long as no election is given up whose acquire is granted: with
every release executing and no lock expiring, no lock of the worker is left while no run is going
on. -/
theorem leadership_goes_back {tr : List (Event κ W)}
    (h : ((system settings me).restrict fun s e => Reliable me s e ∧ Heard s e).Run tr s)
    (hidle : s.worker.pc = .idle) (q : κ) (n : ℕ) : (s.server q).lock ≠ some (me, n) := by
  intro hlock
  have hstands := (tidy_of_run h.of_restrict).stands
  unfold DispatchWorker.Stands at hstands
  rw [hidle] at hstands
  rcases (known_of_run h).lock q n hlock with ⟨rest, hasking⟩ | ⟨l, hl, -⟩
  · rw [hidle] at hasking
    cases hasking
  · rw [(hstands.parts q).lead] at hl
    cases hl

end Known

/-! ## A cancelled election -/

/-- The acquire of the first election executes. -/
theorem step_asked {server : ℕ → Server ℕ} {r : Reply ℕ}
    (hr : (Dispatch.exec plain 0 (server 0) (.acquire 0)).2 = r) :
    Step solo 0
      ⟨unled true false none (some .asleep) 1 (.asking 0 0 [] none), server, []⟩ .exec
      ⟨unled true false none (some .asleep) 1 (.asking 0 0 [] (some r)),
        Function.update server 0 (Dispatch.exec plain 0 (server 0) (.acquire 0)).1, []⟩ := by
  subst hr
  exact Step.execAsk (s := ⟨_, server, []⟩) 0 0 [] none rfl

/-- The run is cancelled before it hears of its reply. -/
theorem run_cancelled {r : Reply ℕ} :
    RunAct solo (unled true false none (some .asleep) 1 (.asking 0 0 [] (some r))) .cancel []
      (unled true true none (some .asleep) 1 (.closing .leads true false)) :=
  .cancelAsking 0 0 [] (some r) rfl

/-- The worker is elected and leads its queue. `run()` is cancelled, and the lead loop leaves and
releases its Mutex. -/
def ledAndGivenBack : List (Event Unit ℕ) :=
  [.ended .cancelled, .cleaned, .quiet, .quiet, .quiet, .lead () .quiet, .exec, .lead () .quiet,
    .lead () .quiet, .cancel, .exec, .elect, .exec, .start]

/-- The lock that the worker has while it leads is gone when `run()` has ended. -/
theorem leadership_goes_back_released : ∃ s₁ s : World Unit ℕ,
    (system only 0).Run [.elect, .exec, .start] s₁ ∧ (s₁.server ()).lock = some (0, 0) ∧
    ((system only 0).restrict fun s e => Reliable 0 s e ∧ Heard s e).Run ledAndGivenBack s ∧
    (s.server ()).lock ≠ some (0, 0) := by
  have hback {s₁ s : World Unit ℕ} (h₁ : (system only 0).Run [.elect, .exec, .start] s₁)
      (hlock : (s₁.server ()).lock = some (0, 0))
      (h : ((system only 0).restrict fun s e => Reliable 0 s e ∧ Heard s e).Run ledAndGivenBack s)
      (hidle : s.worker.pc = .idle) : ∃ s₁ s : World Unit ℕ,
      (system only 0).Run [.elect, .exec, .start] s₁ ∧ (s₁.server ()).lock = some (0, 0) ∧
      ((system only 0).restrict fun s e => Reliable 0 s e ∧ Heard s e).Run ledAndGivenBack s ∧
      (s.server ()).lock ≠ some (0, 0) :=
    ⟨s₁, s, h₁, hlock, h, leadership_goes_back h hidle () 0⟩
  have h : ((system only 0).restrict fun s e => Reliable 0 s e ∧ Heard s e).Run []
      (⟨.initial, fun _ => .initial, []⟩ : World Unit ℕ) := .start rfl
  have h := h.permit (.act (.run (.start rfl rfl (.ask () [] rfl (List.Perm.refl _)))))
    ⟨trivial, trivial⟩
  have h := h.permit (.execAsk () 0 [] none rfl) ⟨trivial, trivial⟩
  have h₁ := h.permit (.act (.run (.won () 0 [] rfl))) ⟨trivial, trivial⟩
  have h := h₁.permit (.execPart () .lead _ rfl) ⟨trivial, trivial⟩
  have h := h.permit (.act (.run (.cancelPausing rfl)))
    ⟨trivial, by rintro ⟨q, n, rest, ⟨⟩⟩⟩
  have h := h.permit (.act (.lead (.step () _ _ _ ∅ rfl (.ensured .top _ rfl rfl) (.inl rfl))))
    ⟨by rintro l ⟨⟩ ⟨⟩, trivial⟩
  have h := h.permit (.act (.lead (.step () _ _ _ ∅ rfl (.leave rfl (Or.inr rfl)) (.inl rfl))))
    ⟨by rintro l ⟨⟩ ⟨⟩, trivial⟩
  have h := h.permit (.execPart () .lead _ rfl) ⟨trivial, trivial⟩
  have h := h.permit (.act (.lead (.step () _ _ _ ∅ rfl (.released _ rfl rfl) (.inl rfl))))
    ⟨by rintro l ⟨⟩ - ⟨⟩, trivial⟩
  have h := h.permit (.act (.run (.leadsOver true false rfl fun _ _ => rfl))) ⟨trivial, trivial⟩
  have h := h.permit (.act (.run (.handlersOver true false rfl (by rintro ⟨⟩ t ⟨⟩))))
    ⟨trivial, trivial⟩
  have h := h.permit (.act (.side (.touchOver true false rfl (by rintro q entries rest reply ⟨⟩))))
    ⟨trivial, trivial⟩
  have h := h.permit (.act (.run (.cleaned true false rfl rfl))) ⟨trivial, trivial⟩
  exact hback h₁.of_restrict rfl
    (h.permit (.act (.run (.ended true false rfl))) ⟨trivial, trivial⟩) rfl

/-- **A lock without a leader.** The run is cancelled between the grant of its acquire and the
answer: its shutdown is complete, and the lock stays. -/
theorem lock_outlives_run : ∃ (tr : List (Event ℕ ℕ)) (s : World ℕ ℕ),
    ((system solo 0).restrict (Reliable 0)).Run (.ended .cancelled :: tr) s ∧
    (s.server 0).lock = some (0, 0) := by
  have hinitial : ((system solo 0).restrict (Reliable 0)).Run []
      ⟨.initial, fun _ => .initial, []⟩ := .start rfl
  have hstart := hinitial.permit (Step.of_run start_solo) trivial
  have hasked := hstart.permit (step_asked rfl) trivial
  have hcancelled := hasked.permit (Step.of_run run_cancelled) trivial
  have hcleaned := hcancelled.append (path_cleaned.restrict (by simp [Reliable]))
  exact ⟨_, _, hcleaned.permit (Step.of_run (.ended true false rfl)) trivial, rfl⟩

end Lifecycle

end RedisSemaphore.Dispatch
