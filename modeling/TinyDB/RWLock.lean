import TinyDB.Lib.Run

/-!
# The read-write lock

`RWLock` of `lock.py`. A critical section runs from taking the mutex to leaving it or to a
`wait`, and is one step; between steps the threads interleave in any way. A thread in a `wait`
stays in the list of its condition until it is notified or, its time being over, has the mutex
again; then it goes through the loop. `rwlock_safe` holds of every state that any number of
threads can reach.
-/

namespace TinyDB

open Lib

/-! ## Critical sections -/

/-- The counters of `RWLock`. -/
structure RWLock where
  readers : Int
  writers : Int
  writerWaiters : Int
  deriving DecidableEq, Repr

/-- How a pass through the loop of an acquire ends. -/
inductive Pass where
  | granted
  | raised
  | waits
  deriving DecidableEq, Repr

namespace RWLock

def new : RWLock := ⟨0, 0, 0⟩

/-- The loop of `acquire_read`, up to its `wait`; `expired` is `remaining <= 0`. -/
def acquireRead (lock : RWLock) (expired : Bool) : Pass × RWLock :=
  if lock.writers > 0 ∨ lock.writerWaiters > 0 then (if expired then .raised else .waits, lock)
  else (.granted, { lock with readers := lock.readers + 1 })

/-- `finally: self._writer_waiters -= 1`. -/
def leaveWrite (lock : RWLock) : RWLock := { lock with writerWaiters := lock.writerWaiters - 1 }

/-- The loop of `acquire_write`, up to its `wait`. -/
def acquireWrite (lock : RWLock) (expired : Bool) : Pass × RWLock :=
  if lock.readers > 0 ∨ lock.writers > 0 then
    if expired then (.raised, lock.leaveWrite) else (.waits, lock)
  else (.granted, { lock with writers := lock.writers + 1 }.leaveWrite)

/-- `self._writer_waiters += 1`. -/
def enterWrite (lock : RWLock) : RWLock := { lock with writerWaiters := lock.writerWaiters + 1 }

/-- `release_read`; the flag tells whether a writer is notified. -/
def releaseRead (lock : RWLock) : Bool × RWLock :=
  (decide (lock.readers - 1 = 0), { lock with readers := lock.readers - 1 })

/-- `release_write`, which notifies a writer and all readers. -/
def releaseWrite (lock : RWLock) : RWLock := { lock with writers := lock.writers - 1 }

end RWLock

/-! ## Threads -/

/-- The lock, what each thread holds, and who is in the middle of an acquire: in its `wait`, or
notified and on the way back into the loop. A thread that holds two reads is listed twice. -/
structure Threads (τ : Type) where
  lock : RWLock
  readHolds : List τ
  writeHolds : List τ
  readWaiting : List τ
  readWoken : List τ
  writeWaiting : List τ
  writeWoken : List τ
  deriving DecidableEq, Repr

/-- What a thread does next. `notified` is the writer that `notify` picks. -/
inductive LockEvent (τ : Type) where
  | acquireRead (t : τ) (expired : Bool)
  | releaseRead (t : τ) (notified : Option τ)
  | acquireWrite (t : τ) (expired : Bool)
  | releaseWrite (t : τ) (notified : Option τ)
  -- the thread has the mutex again, notified or not, and goes through the loop
  | resume (t : τ) (expired : Bool)
  -- the `wait` raises, and the exception leaves the acquire
  | interrupt (t : τ)
  deriving DecidableEq, Repr

namespace Threads

variable {τ : Type}

def new : Threads τ := ⟨RWLock.new, [], [], [], [], [], []⟩

/-- The writers in the middle of an acquire. -/
def waitingWriters (s : Threads τ) : List τ := s.writeWaiting ++ s.writeWoken

/-- `self._readers_ok.notify_all()`. -/
def notifyReaders (s : Threads τ) : Threads τ :=
  { s with readWaiting := [], readWoken := s.readWaiting ++ s.readWoken }

/-- A pass of `acquire_read` of a thread that is listed nowhere else. -/
def passRead (s : Threads τ) (t : τ) (expired : Bool) : Threads τ :=
  let (pass, lock) := s.lock.acquireRead expired
  match pass with
  | .granted => { s with lock, readHolds := t :: s.readHolds }
  | .raised => { s with lock }
  | .waits => { s with lock, readWaiting := t :: s.readWaiting }

def passWrite (s : Threads τ) (t : τ) (expired : Bool) : Threads τ :=
  let (pass, lock) := s.lock.acquireWrite expired
  match pass with
  | .granted => { s with lock, writeHolds := t :: s.writeHolds }
  | .raised => { s with lock }
  | .waits => { s with lock, writeWaiting := t :: s.writeWaiting }

section

variable [DecidableEq τ]

/-- The thread is in the middle of an acquire. -/
def acquiring (s : Threads τ) (t : τ) : Bool :=
  decide (t ∈ s.readWaiting ++ s.readWoken ++ s.waitingWriters)

/-- `self._writers_ok.notify()`: one waiting writer, if there is one. -/
def notifyWriter (s : Threads τ) (notified : Option τ) : Option (Threads τ) :=
  match notified with
  | none => if s.writeWaiting = [] then some s else none
  | some t =>
    if t ∈ s.writeWaiting then
      some { s with writeWaiting := s.writeWaiting.erase t, writeWoken := t :: s.writeWoken }
    else none

/-- One critical section, or none if the thread cannot do this now. -/
def step (s : Threads τ) : LockEvent τ → Option (Threads τ)
  | .acquireRead t expired => if s.acquiring t then none else some (s.passRead t expired)
  | .releaseRead t notified =>
    if s.acquiring t = false ∧ t ∈ s.readHolds then
      let (notify, lock) := s.lock.releaseRead
      let s := { s with lock, readHolds := s.readHolds.erase t }
      if notify then s.notifyWriter notified else if notified = none then some s else none
    else none
  | .acquireWrite t expired =>
    if s.acquiring t then none
    else some ({ s with lock := s.lock.enterWrite }.passWrite t expired)
  | .releaseWrite t notified =>
    if s.acquiring t = false ∧ t ∈ s.writeHolds then
      { s with lock := s.lock.releaseWrite, writeHolds := s.writeHolds.erase t }.notifyWriter
        notified |>.map notifyReaders
    else none
  | .resume t expired =>
    if t ∈ s.readWoken then
      some ({ s with readWoken := s.readWoken.erase t }.passRead t expired)
    else if t ∈ s.readWaiting then
      some ({ s with readWaiting := s.readWaiting.erase t }.passRead t expired)
    else if t ∈ s.writeWoken then
      some ({ s with writeWoken := s.writeWoken.erase t }.passWrite t expired)
    else if t ∈ s.writeWaiting then
      some ({ s with writeWaiting := s.writeWaiting.erase t }.passWrite t expired)
    else none
  | .interrupt t =>
    if t ∈ s.readWaiting then some { s with readWaiting := s.readWaiting.erase t }
    else if t ∈ s.readWoken then some { s with readWoken := s.readWoken.erase t }
    else if t ∈ s.writeWaiting then
      some { s with lock := s.lock.leaveWrite, writeWaiting := s.writeWaiting.erase t }
    else if t ∈ s.writeWoken then
      some { s with lock := s.lock.leaveWrite, writeWoken := s.writeWoken.erase t }
    else none

/-- The states that the threads can reach. -/
inductive Reachable : Threads τ → Prop where
  | new : Reachable new
  | step {s s' : Threads τ} (event : LockEvent τ) :
    Reachable s → s.step event = some s' → Reachable s'

/-- What a step can do: a constructor for each way through its critical section. -/
inductive Steps (s : Threads τ) : LockEvent τ → Threads τ → Prop where
  | acquireRead {t : τ} (expired : Bool) : s.acquiring t = false →
      Steps s (.acquireRead t expired) (s.passRead t expired)
  | releaseRead {t : τ} : t ∈ s.readHolds → s.lock.readers - 1 ≠ 0 →
      Steps s (.releaseRead t none)
        { s with lock.readers := s.lock.readers - 1, readHolds := s.readHolds.erase t }
  | releaseLastRead {t : τ} {notified : Option τ} {s' : Threads τ} : t ∈ s.readHolds →
      s.lock.readers - 1 = 0 →
      { s with lock.readers := s.lock.readers - 1,
               readHolds := s.readHolds.erase t }.notifyWriter notified = some s' →
      Steps s (.releaseRead t notified) s'
  | acquireWrite {t : τ} (expired : Bool) : s.acquiring t = false →
      Steps s (.acquireWrite t expired)
        ({ s with lock := s.lock.enterWrite }.passWrite t expired)
  | releaseWrite {t : τ} {notified : Option τ} {s' : Threads τ} : t ∈ s.writeHolds →
      { s with lock := s.lock.releaseWrite,
               writeHolds := s.writeHolds.erase t }.notifyWriter notified = some s' →
      Steps s (.releaseWrite t notified) s'.notifyReaders
  | resumeReadWoken {t : τ} (expired : Bool) : t ∈ s.readWoken →
      Steps s (.resume t expired)
        ({ s with readWoken := s.readWoken.erase t }.passRead t expired)
  | resumeReadWaiting {t : τ} (expired : Bool) : t ∈ s.readWaiting →
      Steps s (.resume t expired)
        ({ s with readWaiting := s.readWaiting.erase t }.passRead t expired)
  | resumeWriteWoken {t : τ} (expired : Bool) : t ∈ s.writeWoken →
      Steps s (.resume t expired)
        ({ s with writeWoken := s.writeWoken.erase t }.passWrite t expired)
  | resumeWriteWaiting {t : τ} (expired : Bool) : t ∈ s.writeWaiting →
      Steps s (.resume t expired)
        ({ s with writeWaiting := s.writeWaiting.erase t }.passWrite t expired)
  | interruptReadWaiting {t : τ} : t ∈ s.readWaiting →
      Steps s (.interrupt t) { s with readWaiting := s.readWaiting.erase t }
  | interruptReadWoken {t : τ} : t ∈ s.readWoken →
      Steps s (.interrupt t) { s with readWoken := s.readWoken.erase t }
  | interruptWriteWaiting {t : τ} : t ∈ s.writeWaiting →
      Steps s (.interrupt t)
        { s with lock := s.lock.leaveWrite, writeWaiting := s.writeWaiting.erase t }
  | interruptWriteWoken {t : τ} : t ∈ s.writeWoken →
      Steps s (.interrupt t)
        { s with lock := s.lock.leaveWrite, writeWoken := s.writeWoken.erase t }

theorem step_cases {s s' : Threads τ} {event : LockEvent τ} (hs : s.step event = some s') :
    Steps s event s' := by
  cases event with
  | acquireRead t expired =>
    rw [Threads.step] at hs
    split at hs <;> cases hs
    rename_i hfree
    exact .acquireRead expired (Bool.eq_false_iff.mpr hfree)
  | releaseRead t notified =>
    rw [Threads.step] at hs
    split at hs
    · rename_i ht
      simp only [RWLock.releaseRead, decide_eq_true_eq] at hs
      split at hs
      · rename_i hlast
        exact .releaseLastRead ht.2 hlast hs
      · rename_i hmore
        split at hs <;> cases hs
        rename_i hnone
        exact hnone ▸ .releaseRead ht.2 hmore
    · cases hs
  | acquireWrite t expired =>
    rw [Threads.step] at hs
    split at hs <;> cases hs
    rename_i hfree
    exact .acquireWrite expired (Bool.eq_false_iff.mpr hfree)
  | releaseWrite t notified =>
    rw [Threads.step] at hs
    split at hs
    · rename_i ht
      rw [Option.map_eq_some_iff] at hs
      obtain ⟨next, hnext, rfl⟩ := hs
      exact .releaseWrite ht.2 hnext
    · cases hs
  | resume t expired =>
    rw [Threads.step] at hs
    split at hs
    · cases hs
      exact .resumeReadWoken expired ‹_›
    split at hs
    · cases hs
      exact .resumeReadWaiting expired ‹_›
    split at hs
    · cases hs
      exact .resumeWriteWoken expired ‹_›
    split at hs <;> cases hs
    exact .resumeWriteWaiting expired ‹_›
  | interrupt t =>
    rw [Threads.step] at hs
    split at hs
    · cases hs
      exact .interruptReadWaiting ‹_›
    split at hs
    · cases hs
      exact .interruptReadWoken ‹_›
    split at hs
    · cases hs
      exact .interruptWriteWaiting ‹_›
    split at hs <;> cases hs
    exact .interruptWriteWoken ‹_›

end

/-! ## The invariant -/

/-- At most one writer and no reader beside it, and the counters count. `entering` is the
number of threads that are counted as waiting writers and listed nowhere. -/
structure SafeWith (entering : Nat) (s : Threads τ) : Prop where
  oneWriter : s.writeHolds.length ≤ 1
  exclusive : s.writeHolds ≠ [] → s.readHolds = []
  readers : s.lock.readers = s.readHolds.length
  writers : s.lock.writers = s.writeHolds.length
  waiters : s.lock.writerWaiters = s.waitingWriters.length + entering

abbrev Safe (s : Threads τ) : Prop := SafeWith 0 s

section

variable {s s' : Threads τ} {t : τ} {expired : Bool} {notified : Option τ} {entering : Nat}

theorem length_waitingWriters (s : Threads τ) :
    s.waitingWriters.length = s.writeWaiting.length + s.writeWoken.length := List.length_append

theorem safe_new : Safe (new : Threads τ) :=
  ⟨Nat.zero_le _, fun h => absurd rfl h, rfl, rfl, rfl⟩

/-- A read is granted exactly while nobody writes or waits to write. -/
theorem passRead_cases (s : Threads τ) (t : τ) (expired : Bool) :
    (s.lock.writers ≤ 0 ∧ s.lock.writerWaiters ≤ 0 ∧ s.passRead t expired =
      { s with lock.readers := s.lock.readers + 1, readHolds := t :: s.readHolds }) ∨
    s.passRead t expired = s ∨
      (s.lock.writers > 0 ∨ s.lock.writerWaiters > 0) ∧
        s.passRead t expired = { s with readWaiting := t :: s.readWaiting } := by
  rw [passRead, RWLock.acquireRead]
  by_cases hbusy : s.lock.writers > 0 ∨ s.lock.writerWaiters > 0
  · rw [if_pos hbusy]
    cases expired with
    | true => exact Or.inr (Or.inl rfl)
    | false => exact Or.inr (Or.inr ⟨hbusy, rfl⟩)
  · rw [if_neg hbusy]
    refine Or.inl ⟨?_, ?_, rfl⟩ <;> omega

theorem SafeWith.passRead (h : SafeWith entering s) : SafeWith entering (s.passRead t expired) := by
  rcases passRead_cases s t expired with ⟨hw, -, he⟩ | he | ⟨-, he⟩
  · have hnone : s.writeHolds = [] := by
      have hwriters := h.writers
      apply List.eq_nil_of_length_eq_zero
      omega
    rw [he]
    refine ⟨h.oneWriter, fun hne => absurd hnone hne, ?_, h.writers, h.waiters⟩
    have hreaders := h.readers
    simp only [List.length_cons]
    omega
  · rw [he]
    exact h
  · rw [he]
    exact ⟨h.oneWriter, h.exclusive, h.readers, h.writers, h.waiters⟩

/-- A write is granted exactly while nobody reads or writes. -/
theorem passWrite_cases (s : Threads τ) (t : τ) (expired : Bool) :
    (s.lock.readers ≤ 0 ∧ s.lock.writers ≤ 0 ∧ s.passWrite t expired =
      { s with lock := { s.lock with writers := s.lock.writers + 1 }.leaveWrite,
               writeHolds := t :: s.writeHolds }) ∨
    (s.lock.readers > 0 ∨ s.lock.writers > 0) ∧
      (expired = true ∧ s.passWrite t expired = { s with lock := s.lock.leaveWrite } ∨
        expired = false ∧ s.passWrite t expired = { s with writeWaiting := t :: s.writeWaiting }) := by
  rw [passWrite, RWLock.acquireWrite]
  by_cases hbusy : s.lock.readers > 0 ∨ s.lock.writers > 0
  · rw [if_pos hbusy]
    refine Or.inr ⟨hbusy, ?_⟩
    cases expired with
    | true => exact Or.inl ⟨rfl, rfl⟩
    | false => exact Or.inr ⟨rfl, rfl⟩
  · rw [if_neg hbusy]
    refine Or.inl ⟨?_, ?_, rfl⟩ <;> omega

theorem SafeWith.passWrite (h : SafeWith (entering + 1) s) :
    SafeWith entering (s.passWrite t expired) := by
  have hwaiters := h.waiters
  have hlength := length_waitingWriters s
  rcases passWrite_cases s t expired with ⟨hr, hw, he⟩ | ⟨-, ⟨-, he⟩ | ⟨-, he⟩⟩
  · have hwriters := h.writers
    have hreaders := h.readers
    have hnone : s.readHolds = [] := by
      apply List.eq_nil_of_length_eq_zero
      omega
    rw [he]
    refine ⟨?_, fun _ => hnone, h.readers, ?_, ?_⟩
    · simp only [List.length_cons]
      omega
    · simp only [RWLock.leaveWrite, List.length_cons]
      omega
    · simp only [RWLock.leaveWrite, waitingWriters, List.length_append]
      omega
  · rw [he]
    refine ⟨h.oneWriter, h.exclusive, h.readers, h.writers, ?_⟩
    simp only [RWLock.leaveWrite, waitingWriters, List.length_append]
    omega
  · rw [he]
    refine ⟨h.oneWriter, h.exclusive, h.readers, h.writers, ?_⟩
    simp only [waitingWriters, List.length_append, List.length_cons]
    omega

theorem readHolds_passWrite (s : Threads τ) (t : τ) (expired : Bool) :
    (s.passWrite t expired).readHolds = s.readHolds := by
  rcases passWrite_cases s t expired with ⟨-, -, he⟩ | ⟨-, ⟨-, he⟩ | ⟨-, he⟩⟩ <;> rw [he]

/-- `finally` takes a writer that is listed nowhere out of the count. -/
theorem SafeWith.leaveWrite (h : SafeWith (entering + 1) s) :
    SafeWith entering { s with lock := s.lock.leaveWrite } := by
  refine ⟨h.oneWriter, h.exclusive, h.readers, h.writers, ?_⟩
  have hwaiters := h.waiters
  simp only [RWLock.leaveWrite, waitingWriters] at hwaiters ⊢
  omega

theorem SafeWith.enterWrite (h : SafeWith entering s) :
    SafeWith (entering + 1) { s with lock := s.lock.enterWrite } := by
  refine ⟨h.oneWriter, h.exclusive, h.readers, h.writers, ?_⟩
  have hwaiters := h.waiters
  simp only [RWLock.enterWrite, waitingWriters] at hwaiters ⊢
  omega

/-- Readers that wait or wake do not count. -/
theorem SafeWith.readersMove (h : SafeWith entering s) (waiting woken : List τ) :
    SafeWith entering { s with readWaiting := waiting, readWoken := woken } :=
  ⟨h.oneWriter, h.exclusive, h.readers, h.writers, h.waiters⟩

variable [DecidableEq τ]

/-- A writer goes from the `wait` to those that are awake. -/
theorem SafeWith.wakeWriter (h : SafeWith entering s) (ht : t ∈ s.writeWaiting) :
    SafeWith entering
      { s with writeWaiting := s.writeWaiting.erase t, writeWoken := t :: s.writeWoken } := by
  refine ⟨h.oneWriter, h.exclusive, h.readers, h.writers, ?_⟩
  have hwaiters := h.waiters
  have hpos := List.length_pos_of_mem ht
  rw [length_waitingWriters] at hwaiters
  simp only [waitingWriters, List.length_append, List.length_cons, List.length_erase_of_mem ht]
  omega

/-- `notify` picks a waiting writer if there is one. -/
theorem notifyWriter_cases (hs : s.notifyWriter notified = some s') :
    (s.writeWaiting = [] ∧ s' = s) ∨ ∃ t ∈ s.writeWaiting,
      s' = { s with writeWaiting := s.writeWaiting.erase t, writeWoken := t :: s.writeWoken } := by
  cases notified with
  | none =>
    rw [Threads.notifyWriter] at hs
    split at hs <;> cases hs
    exact Or.inl ⟨‹_›, rfl⟩
  | some t =>
    rw [Threads.notifyWriter] at hs
    split at hs <;> cases hs
    exact Or.inr ⟨t, ‹_›, rfl⟩

theorem SafeWith.notifyWriter (h : SafeWith entering s)
    (hs : s.notifyWriter notified = some s') : SafeWith entering s' := by
  rcases notifyWriter_cases hs with ⟨-, rfl⟩ | ⟨t, ht, rfl⟩
  · exact h
  · exact h.wakeWriter ht

theorem SafeWith.releaseRead (h : SafeWith entering s) (ht : t ∈ s.readHolds) :
    SafeWith entering
      { s with lock.readers := s.lock.readers - 1, readHolds := s.readHolds.erase t } := by
  have hpos := List.length_pos_of_mem ht
  have hreaders := h.readers
  refine ⟨h.oneWriter, fun hne => ?_, ?_, h.writers, h.waiters⟩
  · rw [h.exclusive hne] at ht
    cases ht
  · simp only [List.length_erase_of_mem ht]
    omega

theorem SafeWith.releaseWrite (h : SafeWith entering s) (ht : t ∈ s.writeHolds) :
    SafeWith entering
      { s with lock := s.lock.releaseWrite, writeHolds := s.writeHolds.erase t } := by
  have hpos := List.length_pos_of_mem ht
  have hwriters := h.writers
  have hone := h.oneWriter
  have hread : s.readHolds = [] := h.exclusive (List.ne_nil_of_mem ht)
  refine ⟨?_, fun _ => hread, h.readers, ?_, h.waiters⟩
  · simp only [List.length_erase_of_mem ht]
    omega
  · simp only [RWLock.releaseWrite, List.length_erase_of_mem ht]
    omega

/-- A writer leaves one of the two lists of those in an acquire. -/
theorem SafeWith.leaveWaiting (h : SafeWith entering s) (ht : t ∈ s.writeWaiting) :
    SafeWith (entering + 1) { s with writeWaiting := s.writeWaiting.erase t } := by
  refine ⟨h.oneWriter, h.exclusive, h.readers, h.writers, ?_⟩
  have hwaiters := h.waiters
  have hpos := List.length_pos_of_mem ht
  rw [length_waitingWriters] at hwaiters
  simp only [waitingWriters, List.length_append, List.length_erase_of_mem ht]
  omega

theorem SafeWith.leaveWoken (h : SafeWith entering s) (ht : t ∈ s.writeWoken) :
    SafeWith (entering + 1) { s with writeWoken := s.writeWoken.erase t } := by
  refine ⟨h.oneWriter, h.exclusive, h.readers, h.writers, ?_⟩
  have hwaiters := h.waiters
  have hpos := List.length_pos_of_mem ht
  rw [length_waitingWriters] at hwaiters
  simp only [waitingWriters, List.length_append, List.length_erase_of_mem ht]
  omega

/-- **A step keeps the invariant.** -/
theorem Safe.step {event : LockEvent τ} (h : Safe s) (hs : s.step event = some s') : Safe s' := by
  cases step_cases hs with
  | acquireRead expired hfree => exact SafeWith.passRead h
  | releaseRead ht hmore => exact SafeWith.releaseRead h ht
  | releaseLastRead ht hlast hnext => exact (SafeWith.releaseRead h ht).notifyWriter hnext
  | acquireWrite expired hfree => exact (SafeWith.enterWrite h).passWrite
  | releaseWrite ht hnext =>
    exact ((SafeWith.releaseWrite h ht).notifyWriter hnext).readersMove _ _
  | resumeReadWoken expired ht => exact (SafeWith.readersMove h _ _).passRead
  | resumeReadWaiting expired ht => exact (SafeWith.readersMove h _ _).passRead
  | resumeWriteWoken expired ht => exact (SafeWith.leaveWoken h ht).passWrite
  | resumeWriteWaiting expired ht => exact (SafeWith.leaveWaiting h ht).passWrite
  | interruptReadWaiting ht => exact SafeWith.readersMove h _ _
  | interruptReadWoken ht => exact SafeWith.readersMove h _ _
  | interruptWriteWaiting ht => exact (SafeWith.leaveWaiting h ht).leaveWrite
  | interruptWriteWoken ht => exact (SafeWith.leaveWoken h ht).leaveWrite

theorem Reachable.safe (h : Reachable s) : Safe s := by
  induction h with
  | new => exact safe_new
  | step event _ hs ih => exact ih.step hs

theorem readHolds_notifyWriter (hs : s.notifyWriter notified = some s') :
    s'.readHolds = s.readHolds := by
  rcases notifyWriter_cases hs with ⟨-, rfl⟩ | ⟨t, ht, rfl⟩ <;> rfl

/-- Only a pass of `acquire_read` grants a read. -/
theorem readHolds_of_step {event : LockEvent τ} (hs : s.step event = some s')
    (hgrant : s.readHolds.length < s'.readHolds.length) : s.lock.writerWaiters ≤ 0 := by
  have hpass : ∀ (next : Threads τ) (t : τ) (expired : Bool), next.lock = s.lock →
      next.readHolds = s.readHolds →
      s.readHolds.length < (next.passRead t expired).readHolds.length →
      s.lock.writerWaiters ≤ 0 := by
    intro next t expired hlock hholds hlt
    rcases passRead_cases next t expired with ⟨-, hw, -⟩ | he | ⟨-, he⟩
    · rwa [← hlock]
    · rw [he, hholds] at hlt
      omega
    · rw [he, ← hholds] at hlt
      exact absurd hlt (Nat.lt_irrefl _)
  have hsame : ∀ {n m : Nat}, n ≤ m → ¬ m < n := fun h => Nat.not_lt.mpr h
  cases step_cases hs with
  | @acquireRead t expired hfree => exact hpass s t expired rfl rfl hgrant
  | releaseRead ht hmore => exact absurd hgrant (hsame List.length_erase_le)
  | releaseLastRead ht hlast hnext =>
    rw [readHolds_notifyWriter hnext] at hgrant
    exact absurd hgrant (hsame List.length_erase_le)
  | releaseWrite ht hnext =>
    rw [notifyReaders, readHolds_notifyWriter hnext] at hgrant
    exact absurd hgrant (hsame (Nat.le_refl _))
  | @resumeReadWoken t expired ht =>
    exact hpass { s with readWoken := s.readWoken.erase t } t expired rfl rfl hgrant
  | @resumeReadWaiting t expired ht =>
    exact hpass { s with readWaiting := s.readWaiting.erase t } t expired rfl rfl hgrant
  | acquireWrite _ _ | resumeWriteWoken _ _ | resumeWriteWaiting _ _ =>
    rw [readHolds_passWrite] at hgrant
    exact absurd hgrant (hsame (Nat.le_refl _))
  | interruptReadWaiting _ | interruptReadWoken _ | interruptWriteWaiting _
  | interruptWriteWoken _ => exact absurd hgrant (hsame (Nat.le_refl _))

/-- **The lock is safe.** In every state that the threads can reach at most one writer holds the
lock, no reader beside it, the counters are the numbers of those that hold it and of the
waiting writers, and a step that grants a read finds no writer waiting. -/
theorem rwlock_safe (τ : Type) [DecidableEq τ] (s : Threads τ) (h : Reachable s) :
    s.writeHolds.length ≤ 1 ∧ (s.writeHolds ≠ [] → s.readHolds = []) ∧
      s.lock.readers = s.readHolds.length ∧ s.lock.writers = s.writeHolds.length ∧
      s.lock.writerWaiters = s.waitingWriters.length ∧
      ∀ event s', s.step event = some s' → s.readHolds.length < s'.readHolds.length →
        s.waitingWriters = [] := by
  have hsafe := h.safe
  have hwaiters : s.lock.writerWaiters = s.waitingWriters.length := hsafe.waiters
  refine ⟨hsafe.oneWriter, hsafe.exclusive, hsafe.readers, hsafe.writers, hwaiters, ?_⟩
  intro event s' hs hgrant
  have hnone := readHolds_of_step hs hgrant
  apply List.eq_nil_of_length_eq_zero
  omega

end

/-- Thread 0 holds a read, thread 1 waits to write. -/
theorem rwlock_safe_waiting : ∃ s : Threads Nat,
    (new : Threads Nat).step (.acquireRead 0 false) = some s ∧
      ∃ s', s.step (.acquireWrite 1 false) = some s' ∧
        s'.lock.writerWaiters = s'.waitingWriters.length :=
  ⟨_, rfl, _, rfl, (rwlock_safe Nat _ (.step (.acquireWrite 1 false)
    (.step (.acquireRead 0 false) .new rfl) rfl)).2.2.2.2.1⟩

end Threads

end TinyDB
