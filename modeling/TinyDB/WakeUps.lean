import TinyDB.RWLock

/-!
# Lost wake-ups

Every release notifies, but a writer that gives up takes itself out of `_writer_waiters` and
notifies nobody. `noLostWakeUp_iff`: as long as no writer gives up while readers are blocked
for its sake only, or with a notification that another writer needs, no wake-up is lost; and
the first that does loses one.
-/

namespace TinyDB

namespace Threads

variable {τ : Type}

/-! ## The statement -/

/-- No wake-up is lost: whoever is blocked and not notified can count on a thread that holds the
lock or is on its way to it. -/
structure NoLostWakeUp (s : Threads τ) : Prop where
  readers : s.readWaiting ≠ [] → s.writeHolds ≠ [] ∨ s.waitingWriters ≠ []
  writers : ∀ t ∈ s.writeWaiting,
    (s.readHolds ≠ [] ∨ s.writeHolds ≠ []) ∨ ∃ u ∈ s.writeWoken, u ≠ t

/-- In this step the writer `t` gives up: its time is over and the lock is held, or its `wait`
raises. -/
def GivesUp (s : Threads τ) (t : τ) : LockEvent τ → Prop
  | .resume u expired => u = t ∧ expired = true ∧ t ∈ s.waitingWriters ∧
      (s.readHolds ≠ [] ∨ s.writeHolds ≠ [])
  | .interrupt u => u = t ∧ t ∈ s.waitingWriters
  | _ => False

/-- A writer gives up only if no reader is blocked or a writer remains for whom the readers
wait, and if no other writer is blocked or one remains that lets it in. -/
def Harmless (s : Threads τ) (event : LockEvent τ) : Prop :=
  ∀ t, s.GivesUp t event →
    (s.readWaiting ≠ [] → s.writeHolds ≠ [] ∨ ∃ u ∈ s.waitingWriters, u ≠ t) ∧
    ((∃ v ∈ s.writeWaiting, v ≠ t) →
      (s.readHolds ≠ [] ∨ s.writeHolds ≠ []) ∨ ∃ u ∈ s.writeWoken, u ≠ t)

section

variable [DecidableEq τ]

/-- The states that harmless steps can reach. -/
inductive Heeded : Threads τ → Prop where
  | new : Heeded new
  | step {s s' : Threads τ} (event : LockEvent τ) : Heeded s → s.Harmless event →
    s.step event = some s' → Heeded s'

theorem Heeded.reachable {s : Threads τ} (h : Heeded s) : Reachable s := by
  induction h with
  | new => exact .new
  | step event _ _ hs ih => exact .step event ih hs

end

/-! ## One place for each thread -/

/-- The threads in the middle of an acquire. -/
def acquirers (s : Threads τ) : List τ := s.readWaiting ++ s.readWoken ++ s.waitingWriters

section

variable {s s' : Threads τ} {t : τ} {expired : Bool} {notified : Option τ}

theorem perm_passRead (s : Threads τ) (t : τ) (expired : Bool) :
    (s.passRead t expired).acquirers.Perm s.acquirers ∨
      (s.passRead t expired).acquirers.Perm (t :: s.acquirers) := by
  rcases passRead_cases s t expired with ⟨-, -, he⟩ | he | ⟨-, he⟩ <;> rw [he]
  · exact Or.inl (List.Perm.refl _)
  · exact Or.inl (List.Perm.refl _)
  · exact Or.inr (List.Perm.refl _)

theorem perm_passWrite (s : Threads τ) (t : τ) (expired : Bool) :
    (s.passWrite t expired).acquirers.Perm s.acquirers ∨
      (s.passWrite t expired).acquirers.Perm (t :: s.acquirers) := by
  rcases passWrite_cases s t expired with ⟨-, -, he⟩ | ⟨-, ⟨-, he⟩ | ⟨-, he⟩⟩ <;> rw [he]
  · exact Or.inl (List.Perm.refl _)
  · exact Or.inl (List.Perm.refl _)
  · exact Or.inr List.perm_middle

/-- A thread that comes from nowhere or has left its place has one place again. -/
theorem nodup_of_pass {next : Threads τ} (h : (t :: s.acquirers).Nodup)
    (hpass : next.acquirers.Perm s.acquirers ∨ next.acquirers.Perm (t :: s.acquirers)) :
    next.acquirers.Nodup := by
  rcases hpass with hp | hp
  · exact hp.nodup_iff.mpr (List.nodup_cons.mp h).2
  · exact hp.nodup_iff.mpr h

theorem perm_notifyReaders (s : Threads τ) : s.notifyReaders.acquirers.Perm s.acquirers := by
  simp only [acquirers, notifyReaders, waitingWriters, List.nil_append]
  exact List.Perm.refl _

/-- A waiting writer is not also a notified one. -/
theorem woken_ne_waiting (h : s.acquirers.Nodup) {u : τ} (hu : u ∈ s.writeWoken)
    (ht : t ∈ s.writeWaiting) : u ≠ t := by
  rintro rfl
  have hwriters := (List.nodup_append.mp h).2.1
  exact (List.nodup_append.mp hwriters).2.2 u ht u hu rfl

/-- A waiting writer is not also a reader. -/
theorem not_reader (h : s.acquirers.Nodup) (ht : t ∈ s.waitingWriters) :
    t ∉ s.readWaiting ∧ t ∉ s.readWoken := by
  have hapart := (List.nodup_append.mp h).2.2
  exact ⟨fun hr => hapart t (List.mem_append_left _ hr) t ht rfl,
    fun hr => hapart t (List.mem_append_right _ hr) t ht rfl⟩

variable [DecidableEq τ]

theorem perm_readWaiting (ht : t ∈ s.readWaiting) :
    (t :: { s with readWaiting := s.readWaiting.erase t }.acquirers).Perm s.acquirers :=
  ((List.perm_cons_erase ht).symm.append_right s.readWoken).append_right s.waitingWriters

theorem perm_readWoken (ht : t ∈ s.readWoken) :
    (t :: { s with readWoken := s.readWoken.erase t }.acquirers).Perm s.acquirers := by
  have hperm := (List.perm_cons_erase ht).symm.append_left s.readWaiting
  exact (List.perm_middle.symm.trans hperm).append_right s.waitingWriters

theorem perm_writeWaiting (ht : t ∈ s.writeWaiting) :
    (t :: { s with writeWaiting := s.writeWaiting.erase t }.acquirers).Perm s.acquirers := by
  have hperm := (List.perm_cons_erase ht).symm.append_right s.writeWoken
  exact List.perm_middle.symm.trans (hperm.append_left (s.readWaiting ++ s.readWoken))

theorem perm_writeWoken (ht : t ∈ s.writeWoken) :
    (t :: { s with writeWoken := s.writeWoken.erase t }.acquirers).Perm s.acquirers := by
  have hperm := (List.perm_cons_erase ht).symm.append_left s.writeWaiting
  exact List.perm_middle.symm.trans
    ((List.perm_middle.symm.trans hperm).append_left (s.readWaiting ++ s.readWoken))

theorem perm_notifyWriter (hs : s.notifyWriter notified = some s') :
    s'.acquirers.Perm s.acquirers := by
  rcases notifyWriter_cases hs with ⟨-, rfl⟩ | ⟨t, ht, rfl⟩
  · exact List.Perm.refl _
  · have hmiddle : (s.writeWaiting.erase t ++ t :: s.writeWoken).Perm s.waitingWriters :=
      List.perm_middle.trans ((List.perm_cons_erase ht).symm.append_right s.writeWoken)
    exact hmiddle.append_left (s.readWaiting ++ s.readWoken)

/-- A thread is in the middle of one acquire at most, and in one place of it. -/
theorem nodup_acquirers (h : Reachable s) : s.acquirers.Nodup := by
  induction h with
  | new => exact List.nodup_nil
  | @step s s' event hreach hs ih =>
    have hfree : ∀ {t}, s.acquiring t = false → (t :: s.acquirers).Nodup := fun hno =>
      List.nodup_cons.mpr ⟨of_decide_eq_false hno, ih⟩
    cases step_cases hs with
    | acquireRead expired hno => exact nodup_of_pass (hfree hno) (perm_passRead s _ expired)
    | releaseRead ht hmore => exact ih
    | releaseLastRead ht hlast hnext => exact (perm_notifyWriter hnext).nodup_iff.mpr ih
    | acquireWrite expired hno => exact nodup_of_pass (hfree hno) (perm_passWrite _ _ expired)
    | releaseWrite ht hnext =>
      exact (perm_notifyReaders _).nodup_iff.mpr ((perm_notifyWriter hnext).nodup_iff.mpr ih)
    | resumeReadWoken expired ht =>
      exact nodup_of_pass ((perm_readWoken ht).nodup_iff.mpr ih) (perm_passRead _ _ expired)
    | resumeReadWaiting expired ht =>
      exact nodup_of_pass ((perm_readWaiting ht).nodup_iff.mpr ih) (perm_passRead _ _ expired)
    | resumeWriteWoken expired ht =>
      exact nodup_of_pass ((perm_writeWoken ht).nodup_iff.mpr ih) (perm_passWrite _ _ expired)
    | resumeWriteWaiting expired ht =>
      exact nodup_of_pass ((perm_writeWaiting ht).nodup_iff.mpr ih) (perm_passWrite _ _ expired)
    | interruptReadWaiting ht =>
      exact (List.nodup_cons.mp ((perm_readWaiting ht).nodup_iff.mpr ih)).2
    | interruptReadWoken ht =>
      exact (List.nodup_cons.mp ((perm_readWoken ht).nodup_iff.mpr ih)).2
    | interruptWriteWaiting ht =>
      exact (List.nodup_cons.mp ((perm_writeWaiting ht).nodup_iff.mpr ih)).2
    | interruptWriteWoken ht =>
      exact (List.nodup_cons.mp ((perm_writeWoken ht).nodup_iff.mpr ih)).2

end

/-! ## A step that gives up -/

section

variable {s s' : Threads τ} {t : τ} {expired : Bool} {notified : Option τ} {entering : Nat}

/-- The writer `t` has left its acquire, and nothing else has changed. -/
structure Left (s s' : Threads τ) (t : τ) : Prop where
  readWaiting : s'.readWaiting = s.readWaiting
  readHolds : s'.readHolds = s.readHolds
  writeHolds : s'.writeHolds = s.writeHolds
  waiting : ∀ u, u ∈ s'.writeWaiting ↔ u ∈ s.writeWaiting ∧ u ≠ t
  woken : ∀ u, u ∈ s'.writeWoken ↔ u ∈ s.writeWoken ∧ u ≠ t

theorem Left.woken_iff (h : Left s s' t) (hnodup : s.acquirers.Nodup) : NoLostWakeUp s' ↔
    (s.readWaiting ≠ [] → s.writeHolds ≠ [] ∨ ∃ u ∈ s.waitingWriters, u ≠ t) ∧
    ((∃ v ∈ s.writeWaiting, v ≠ t) →
      (s.readHolds ≠ [] ∨ s.writeHolds ≠ []) ∨ ∃ u ∈ s.writeWoken, u ≠ t) := by
  have hwriters : s'.waitingWriters ≠ [] ↔ ∃ u ∈ s.waitingWriters, u ≠ t := by
    rw [← List.length_pos_iff, List.length_pos_iff_exists_mem]
    refine exists_congr fun u => ?_
    simp only [waitingWriters, List.mem_append, h.waiting, h.woken, or_and_right]
  constructor
  · intro hkept
    refine ⟨fun hr => ?_, fun hw => ?_⟩
    · rw [← hwriters, ← h.writeHolds]
      exact hkept.readers (h.readWaiting ▸ hr)
    · obtain ⟨v, hv, hne⟩ := hw
      rw [← h.readHolds, ← h.writeHolds]
      refine (hkept.writers v ((h.waiting v).mpr ⟨hv, hne⟩)).imp_right ?_
      rintro ⟨u, hu, -⟩
      exact ⟨u, (h.woken u).mp hu⟩
  · rintro ⟨hreaders, hothers⟩
    refine ⟨fun hr => ?_, fun v hv => ?_⟩
    · rw [hwriters, h.writeHolds]
      exact hreaders (h.readWaiting ▸ hr)
    · rw [h.readHolds, h.writeHolds]
      have hv' := (h.waiting v).mp hv
      refine (hothers ⟨v, hv'⟩).imp_right ?_
      rintro ⟨u, hu⟩
      exact ⟨u, (h.woken u).mpr hu, woken_ne_waiting hnodup hu.1 hv'.1⟩

theorem SafeWith.held_iff (h : SafeWith entering s) :
    (s.lock.readers > 0 ∨ s.lock.writers > 0) ↔ (s.readHolds ≠ [] ∨ s.writeHolds ≠ []) := by
  rw [h.readers, h.writers, ← List.length_pos_iff, ← List.length_pos_iff]
  omega

/-! ## The other steps -/

/-- A pass of `acquire_read` blocks only behind a writer. -/
theorem NoLostWakeUp.passRead (hsafe : SafeWith 0 s) (h : NoLostWakeUp s) :
    NoLostWakeUp (s.passRead t expired) := by
  rcases passRead_cases s t expired with ⟨-, -, he⟩ | he | ⟨hbusy, he⟩ <;> rw [he]
  · exact ⟨h.readers, fun _ _ => Or.inl (Or.inl (List.cons_ne_nil _ _))⟩
  · exact h
  · refine ⟨fun _ => ?_, h.writers⟩
    have hwriters := hsafe.writers
    have hwaiters := hsafe.waiters
    rcases hbusy with hw | hw
    · refine Or.inl fun he => ?_
      rw [he] at hwriters
      simp only [List.length_nil] at hwriters
      omega
    · refine Or.inr fun he => ?_
      have hnil : s.waitingWriters = [] := he
      rw [hnil] at hwaiters
      simp only [List.length_nil] at hwaiters
      omega

/-- A pass of `acquire_write` that does not raise takes the lock or blocks behind it. -/
theorem noLostWakeUp_passWrite (hsafe : SafeWith entering s) (t : τ) (expired : Bool) :
    NoLostWakeUp (s.passWrite t expired) ∨ (s.readHolds ≠ [] ∨ s.writeHolds ≠ []) ∧
      expired = true ∧ s.passWrite t expired = { s with lock := s.lock.leaveWrite } := by
  rcases passWrite_cases s t expired with ⟨-, -, he⟩ | ⟨hbusy, ⟨hexpired, he⟩ | ⟨-, he⟩⟩
  · rw [he]
    exact Or.inl ⟨fun _ => Or.inl (List.cons_ne_nil _ _),
      fun _ _ => Or.inl (Or.inr (List.cons_ne_nil _ _))⟩
  · exact Or.inr ⟨hsafe.held_iff.mp hbusy, hexpired, he⟩
  · rw [he]
    exact Or.inl ⟨fun _ => Or.inr (List.cons_ne_nil _ _), fun _ _ => Or.inl (hsafe.held_iff.mp hbusy)⟩

variable [DecidableEq τ]

/-- Behind a notification nobody is blocked in vain. -/
theorem woken_of_notifyWriter (hnodup : s.acquirers.Nodup)
    (hs : s.notifyWriter notified = some s') :
    ∀ t ∈ s'.writeWaiting, ∃ u ∈ s'.writeWoken, u ≠ t := by
  have hnodup' := (perm_notifyWriter hs).nodup_iff.mpr hnodup
  intro t ht
  rcases notifyWriter_cases hs with ⟨hnil, rfl⟩ | ⟨u, hu, rfl⟩
  · rw [hnil] at ht
    cases ht
  · exact ⟨u, List.mem_cons_self .., woken_ne_waiting hnodup' (List.mem_cons_self ..) ht⟩

theorem left_waiting (hnodup : s.acquirers.Nodup) (ht : t ∈ s.writeWaiting) (lock : RWLock) :
    Left s { s with lock, writeWaiting := s.writeWaiting.erase t } t := by
  have hwriters := List.nodup_append.mp (List.nodup_append.mp hnodup).2.1
  refine ⟨rfl, rfl, rfl, fun u => ?_, fun u => ⟨fun hu => ⟨hu, ?_⟩, fun hu => hu.1⟩⟩
  · exact hwriters.1.mem_erase_iff.trans and_comm
  · exact woken_ne_waiting hnodup hu ht

theorem left_woken (hnodup : s.acquirers.Nodup) (ht : t ∈ s.writeWoken) (lock : RWLock) :
    Left s { s with lock, writeWoken := s.writeWoken.erase t } t := by
  have hwriters := List.nodup_append.mp (List.nodup_append.mp hnodup).2.1
  refine ⟨rfl, rfl, rfl, fun u => ⟨fun hu => ⟨hu, ?_⟩, fun hu => hu.1⟩, fun u => ?_⟩
  · exact (woken_ne_waiting hnodup ht hu).symm
  · exact hwriters.2.1.mem_erase_iff.trans and_comm

/-- Only the steps in which a writer gives up can lose a wake-up. -/
theorem noLostWakeUp_step {event : LockEvent τ} (hsafe : Safe s) (hnodup : s.acquirers.Nodup)
    (h : NoLostWakeUp s) (hs : s.step event = some s') :
    NoLostWakeUp s' ∨ ∃ t, s.GivesUp t event ∧ Left s s' t := by
  cases step_cases hs with
  | acquireRead expired hno => exact Or.inl (h.passRead hsafe)
  | @releaseRead t ht hmore =>
    refine Or.inl ⟨h.readers, fun _ _ => Or.inl (Or.inl fun he => hmore ?_)⟩
    have hreleased := (SafeWith.releaseRead hsafe ht).readers
    rw [he] at hreleased
    exact hreleased
  | @releaseLastRead t notified _ ht hlast hnext =>
    refine Or.inl ⟨fun hr => ?_, fun u hu => Or.inr (woken_of_notifyWriter ?_ hnext u hu)⟩
    · rcases notifyWriter_cases hnext with ⟨-, rfl⟩ | ⟨u, -, rfl⟩
      · exact h.readers hr
      · exact (h.readers hr).imp_right fun _ => List.append_ne_nil_of_right_ne_nil _ (List.cons_ne_nil _ _)
    · exact hnodup
  | @acquireWrite t expired hno =>
    rcases noLostWakeUp_passWrite (SafeWith.enterWrite hsafe) t expired with
      hkept | ⟨-, -, he⟩
    · exact Or.inl hkept
    · rw [he]
      exact Or.inl ⟨h.readers, h.writers⟩
  | @releaseWrite t notified _ ht hnext =>
    refine Or.inl ⟨fun hr => absurd rfl hr, fun u hu => Or.inr (woken_of_notifyWriter ?_ hnext u hu)⟩
    exact hnodup
  | @resumeReadWoken t expired ht =>
    have hrest : NoLostWakeUp { s with readWoken := s.readWoken.erase t } := ⟨h.readers, h.writers⟩
    exact Or.inl (hrest.passRead (SafeWith.readersMove hsafe _ _))
  | @resumeReadWaiting t expired ht =>
    have hrest : NoLostWakeUp { s with readWaiting := s.readWaiting.erase t } :=
      ⟨fun _ => h.readers (List.ne_nil_of_mem ht), h.writers⟩
    exact Or.inl (hrest.passRead (SafeWith.readersMove hsafe _ _))
  | @resumeWriteWoken t expired ht =>
    rcases noLostWakeUp_passWrite (SafeWith.leaveWoken hsafe ht) t expired with
      hkept | ⟨hheld, hexpired, he⟩
    · exact Or.inl hkept
    · rw [he]
      exact Or.inr ⟨t, ⟨rfl, hexpired, List.mem_append_right _ ht, hheld⟩, left_woken hnodup ht _⟩
  | @resumeWriteWaiting t expired ht =>
    rcases noLostWakeUp_passWrite (SafeWith.leaveWaiting hsafe ht) t expired with
      hkept | ⟨hheld, hexpired, he⟩
    · exact Or.inl hkept
    · rw [he]
      exact Or.inr ⟨t, ⟨rfl, hexpired, List.mem_append_left _ ht, hheld⟩, left_waiting hnodup ht _⟩
  | interruptReadWaiting ht =>
    exact Or.inl ⟨fun _ => h.readers (List.ne_nil_of_mem ht), h.writers⟩
  | interruptReadWoken ht => exact Or.inl ⟨h.readers, h.writers⟩
  | interruptWriteWaiting ht =>
    exact Or.inr ⟨_, ⟨rfl, List.mem_append_left _ ht⟩, left_waiting hnodup ht _⟩
  | interruptWriteWoken ht =>
    exact Or.inr ⟨_, ⟨rfl, List.mem_append_right _ ht⟩, left_woken hnodup ht _⟩

theorem left_of_givesUp {event : LockEvent τ} (hsafe : Safe s) (hnodup : s.acquirers.Nodup)
    (hg : s.GivesUp t event) (hs : s.step event = some s') : Left s s' t := by
  -- a pass of a writer that finds the lock held and its time over raises
  have hpass : ∀ (next : Threads τ), SafeWith 1 next → next.readHolds = s.readHolds →
      next.writeHolds = s.writeHolds → (s.readHolds ≠ [] ∨ s.writeHolds ≠ []) →
      next.passWrite t true = { next with lock := next.lock.leaveWrite } := by
    intro next hnext hreads hwrites hheld
    rcases passWrite_cases next t true with ⟨hr, hw, -⟩ | ⟨-, ⟨-, he⟩ | ⟨hfalse, -⟩⟩
    · rw [← hreads, ← hwrites, ← hnext.held_iff] at hheld
      omega
    · exact he
    · cases hfalse
  cases event with
  | resume u expired =>
    obtain ⟨rfl, rfl, hwriter, hheld⟩ := hg
    obtain ⟨hwaiting, hwoken⟩ := not_reader hnodup hwriter
    cases step_cases hs with
    | resumeReadWoken _ ht => exact absurd ht hwoken
    | resumeReadWaiting _ ht => exact absurd ht hwaiting
    | resumeWriteWoken _ ht =>
      rw [hpass _ (SafeWith.leaveWoken hsafe ht) rfl rfl hheld]
      exact left_woken hnodup ht _
    | resumeWriteWaiting _ ht =>
      rw [hpass _ (SafeWith.leaveWaiting hsafe ht) rfl rfl hheld]
      exact left_waiting hnodup ht _
  | interrupt u =>
    obtain ⟨rfl, hwriter⟩ := hg
    obtain ⟨hwaiting, hwoken⟩ := not_reader hnodup hwriter
    cases step_cases hs with
    | interruptReadWaiting ht => exact absurd ht hwaiting
    | interruptReadWoken ht => exact absurd ht hwoken
    | interruptWriteWaiting ht => exact left_waiting hnodup ht _
    | interruptWriteWoken ht => exact left_woken hnodup ht _
  | _ => exact hg.elim

omit [DecidableEq τ] in
theorem givesUp_unique {event : LockEvent τ} {u : τ} (ht : s.GivesUp t event)
    (hu : s.GivesUp u event) : u = t := by
  cases event with
  | resume v expired => exact hu.1.symm.trans ht.1
  | interrupt v => exact hu.1.symm.trans ht.1
  | _ => exact ht.elim

/-- A step from a state with no wake-up lost loses none exactly when it is harmless. -/
theorem noLostWakeUp_step_iff {event : LockEvent τ} (hreach : Reachable s) (h : NoLostWakeUp s)
    (hs : s.step event = some s') : NoLostWakeUp s' ↔ s.Harmless event := by
  have hnodup := nodup_acquirers hreach
  by_cases hg : ∃ t, s.GivesUp t event
  · obtain ⟨t, hg⟩ := hg
    rw [(left_of_givesUp hreach.safe hnodup hg hs).woken_iff hnodup]
    exact ⟨fun hkept u hu => givesUp_unique hg hu ▸ hkept, fun hall => hall t hg⟩
  · refine iff_of_true ?_ fun t ht => absurd ⟨t, ht⟩ hg
    rcases noLostWakeUp_step hreach.safe hnodup h hs with hkept | ⟨t, ht, -⟩
    · exact hkept
    · exact absurd ⟨t, ht⟩ hg

theorem Heeded.noLostWakeUp (h : Heeded s) : NoLostWakeUp s := by
  induction h with
  | new => exact ⟨fun hr => absurd rfl hr, fun _ ht => absurd ht List.not_mem_nil⟩
  | step event hheeded hharmless hs ih =>
    exact (noLostWakeUp_step_iff hheeded.reachable ih hs).mpr hharmless

/-- **When no wake-up is lost.** In no state that harmless steps reach a wake-up is lost, and any
other step from there loses one. -/
theorem noLostWakeUp_iff (τ : Type) [DecidableEq τ] (s : Threads τ) (h : Heeded s) :
    NoLostWakeUp s ∧ ∀ event s', s.step event = some s' →
      (NoLostWakeUp s' ↔ s.Harmless event) :=
  ⟨h.noLostWakeUp, fun _ _ hs => noLostWakeUp_step_iff h.reachable h.noLostWakeUp hs⟩

end

/-! ## Three threads -/

/-- Thread 0 reads, thread 1 waits to write, thread 2 to read. -/
def threeThreads : Threads Nat :=
  { lock := ⟨1, 0, 1⟩, readHolds := [0], writeHolds := [], readWaiting := [2], readWoken := [],
    writeWaiting := [1], writeWoken := [] }

theorem heeded_threeThreads : Heeded threeThreads := by
  refine .step (.acquireRead 2 false) (.step (.acquireWrite 1 false) (.step (.acquireRead 0 false)
    .new ?_ rfl) ?_ rfl) ?_ rfl <;> exact fun _ hg => hg.elim

theorem noLostWakeUp_threeThreads : NoLostWakeUp threeThreads :=
  (noLostWakeUp_iff Nat _ heeded_threeThreads).1

/-- The writer's time is over, and the reader 2 waits for nobody. -/
theorem lostWakeUp_timeout : ∃ s : Threads Nat, Reachable s ∧
    threeThreads.step (.resume 1 true) = some s ∧ s.readWaiting = [2] ∧ s.writeHolds = [] ∧
      s.waitingWriters = [] ∧ ¬ NoLostWakeUp s := by
  refine ⟨_, .step (.resume 1 true) heeded_threeThreads.reachable rfl, rfl, rfl, rfl, rfl, ?_⟩
  intro h
  rcases h.readers (List.cons_ne_nil _ _) with hw | hw <;> exact hw rfl

end Threads

end TinyDB
