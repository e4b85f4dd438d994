import Mathlib

/-!
# The state of the thread system

The state of `threads/thread.c` and `threads/synch.c`, kept member by member, so that
`σ.priority t` is `t->priority`.  A thread gives up the processor only inside `schedule`, and
an interrupt is taken only while interrupts are on; the code between two such places is one
section.  `σ.code t` lists the sections that `t` still has to execute.
-/

namespace CS162.Threads

open Function

abbrev Tid := ℕ

abbrev LockId := ℕ

abbrev CondId := ℕ

def priMin : ℤ := 0

def priDefault : ℤ := 31

def priMax : ℤ := 63

def timeSlice : ℕ := 4

inductive ThreadStatus where
  | running
  | ready
  | blocked
  | dying
  deriving DecidableEq, Repr

/-- A `struct semaphore`: one of the program's own, the one inside a lock, or
the one a waiter of a condition variable keeps on its stack. -/
inductive SemaRef where
  | sema (s : ℕ)
  | lock (l : LockId)
  | waiter (w : ℕ)
  deriving DecidableEq, Repr

/-- The operations a thread can call. `threadCreate t p` gets the fresh page
`t` from the page allocator. -/
inductive Op where
  | semaDown (r : SemaRef)
  | semaTryDown (r : SemaRef)
  | semaUp (r : SemaRef)
  | lockAcquire (l : LockId)
  | lockTryAcquire (l : LockId)
  | lockRelease (l : LockId)
  | condWait (c : CondId) (l : LockId)
  | condSignal (c : CondId) (l : LockId)
  | condBroadcast (c : CondId) (l : LockId)
  | threadCreate (t : Tid) (priority : ℤ)
  | threadSetPriority (newPriority : ℤ)
  | threadYield
  | timerSleep (ticks : ℤ)
  | threadSleep (wakeupTime : ℤ)
  | threadExit
  deriving DecidableEq, Repr

/-- One section that a thread has still to execute. The sections that follow a
return from `schedule` are `semaDown`, `lockAcquire`, `lockRelease` and
`threadSleep`; the others start with interrupts on. -/
inductive Frame where
  /-- The call of an operation. -/
  | call (op : Op)
  /-- `sema_down` after its `thread_block`: the loop tests the value again. -/
  | semaDown (r : SemaRef)
  /-- `lock_acquire` after the `thread_block` of its `sema_down`. -/
  | lockAcquire (l : LockId)
  /-- `lock_release` after the `thread_yield` of its `sema_up`. -/
  | lockRelease (l : LockId)
  /-- `thread_sleep` after its `thread_block`. -/
  | threadSleep
  /-- A call of `thread_yield` at the end of an operation. -/
  | threadYield
  /-- `allocate_tid` for the new thread `t`, once `tid_lock` is held. -/
  | allocateTid (t : Tid)
  /-- `thread_create` once the new thread `t` has got its identifier. -/
  | startThread (t : Tid) (tid : ℕ)
  /-- The body of the loop of `idle`. -/
  | idle
  deriving DecidableEq, Repr

/-- A `struct semaphore_elem`: the semaphore of a waiter and the priority it
was entered with. -/
structure SemaphoreElem where
  semaphore : ℕ
  priority : ℤ
  deriving DecidableEq, Repr

/-- The state of the thread system. -/
structure Kernel where
  /-- `t->status`. -/
  status : Tid → ThreadStatus
  /-- `t->priority`. -/
  priority : Tid → ℤ
  /-- `t->instrinsic_priority`. -/
  instrinsicPriority : Tid → ℤ
  /-- `t->wakeup_time`. -/
  wakeupTime : Tid → ℤ
  /-- `t->lock_list`, the locks held by `t` in the order they were taken. -/
  lockList : Tid → List LockId
  /-- `t->waiting_lock`. -/
  waitingLock : Tid → Option LockId
  /-- `t->tid`. -/
  tid : Tid → ℕ
  /-- The sections `t` has still to execute. -/
  code : Tid → List Frame
  /-- `sema->value`, an `unsigned`. -/
  value : SemaRef → ℕ
  /-- `sema->waiters`. -/
  waiters : SemaRef → List Tid
  /-- `lock->holder`. -/
  holder : LockId → Option Tid
  /-- `lock->max_priority`. -/
  maxPriority : LockId → ℤ
  /-- `cond->waiters`. -/
  condWaiters : CondId → List SemaphoreElem
  /-- `ready_list`. -/
  readyList : List Tid
  /-- `sleep_list`. -/
  sleepList : List Tid
  /-- `all_list`. -/
  allList : List Tid
  /-- `running_thread ()`. -/
  current : Tid
  /-- `idle_thread`. -/
  idleThread : Tid
  /-- `tid_lock`. -/
  tidLock : LockId
  /-- `next_tid` of `allocate_tid`. -/
  nextTid : ℕ
  /-- The next stack slot of a `struct semaphore_elem`. -/
  nextWaiter : ℕ
  /-- `ticks` of `devices/timer.c`. -/
  ticks : ℤ
  /-- `thread_ticks`. -/
  threadTicks : ℕ
  /-- `enable_yield`. -/
  enableYield : Bool

namespace Kernel

def setStatus (σ : Kernel) (t : Tid) (s : ThreadStatus) : Kernel :=
  { σ with status := update σ.status t s }

def setPriority (σ : Kernel) (t : Tid) (p : ℤ) : Kernel :=
  { σ with priority := update σ.priority t p }

def setMaxPriority (σ : Kernel) (l : LockId) (p : ℤ) : Kernel :=
  { σ with maxPriority := update σ.maxPriority l p }

def setWaitingLock (σ : Kernel) (t : Tid) (l : Option LockId) : Kernel :=
  { σ with waitingLock := update σ.waitingLock t l }

def setValue (σ : Kernel) (r : SemaRef) (v : ℕ) : Kernel :=
  { σ with value := update σ.value r v }

def setWaiters (σ : Kernel) (r : SemaRef) (ts : List Tid) : Kernel :=
  { σ with waiters := update σ.waiters r ts }

def setCode (σ : Kernel) (t : Tid) (fs : List Frame) : Kernel :=
  { σ with code := update σ.code t fs }

/-- Puts the sections `fs` before those the running thread has still to
execute. -/
def pushCode (σ : Kernel) (fs : List Frame) : Kernel :=
  σ.setCode σ.current (fs ++ σ.code σ.current)

end Kernel

end CS162.Threads
