import CS162.Threads.Sched

/-!
# Semaphores, locks and condition variables

The sections of the operations of `threads/synch.c`. A section ends where the running thread
gives up the processor or turns interrupts on again; what the operation still has to do is
pushed onto the thread's code.
-/

namespace CS162.Threads.Kernel

open Function

/-- The running thread joins the waiters of `r` and blocks; it continues with
the section `f` when it is scheduled again. -/
def waitOn (σ : Kernel) (r : SemaRef) (f : Frame) : Kernel :=
  ((σ.setWaiters r (σ.waiters r ++ [σ.current])).pushCode [f]).threadBlock

/-- The loop of `sema_down`, from a test of the value on. -/
def semaDownLoop (σ : Kernel) (r : SemaRef) : Kernel :=
  if σ.value r = 0 then σ.waitOn r (.semaDown r)
  else σ.setValue r (σ.value r - 1)

def semaTryDown (σ : Kernel) (r : SemaRef) : Kernel × Bool :=
  if 0 < σ.value r then (σ.setValue r (σ.value r - 1), true) else (σ, false)

/-- The part of `sema_up` that wakes the waiter of the highest priority. -/
def wakeMaxWaiter (σ : Kernel) (r : SemaRef) : Option Kernel :=
  match listMax σ.priority (σ.waiters r) with
  | none => some σ
  | some t => (σ.setWaiters r ((σ.waiters r).erase t)).threadUnblock t

/-- `sema_up` up to its `thread_yield`. -/
def semaUpWake (σ : Kernel) (r : SemaRef) : Option Kernel :=
  (σ.wakeMaxWaiter r).map fun σ' =>
    σ'.setValue r ((σ'.value r + 1) % 2 ^ 32)

/-- The running thread becomes the holder of `l`: the end of `lock_acquire`
and of a successful `lock_try_acquire`. -/
def takeLock (σ : Kernel) (l : LockId) : Kernel :=
  let σ' : Kernel := { σ with
    holder := update σ.holder l (some σ.current)
    lockList := update σ.lockList σ.current
      (σ.lockList σ.current ++ [l]) }
  σ'.adjustPriority σ.current

/-- `lock_acquire` from a test of the semaphore's value on. -/
def lockAcquireLoop (σ : Kernel) (l : LockId) : Kernel :=
  if σ.value (.lock l) = 0 then σ.waitOn (.lock l) (.lockAcquire l)
  else ((σ.setValue (.lock l) (σ.value (.lock l) - 1)).takeLock l).setWaitingLock
    σ.current none

def lockAcquire (n : ℕ) (σ : Kernel) (l : LockId) : Option Kernel :=
  if σ.holder l = some σ.current then none
  else
    (flushPriority n (σ.setWaitingLock σ.current (some l)) σ.current).map
      fun σ' => σ'.lockAcquireLoop l

def lockTryAcquire (σ : Kernel) (l : LockId) : Option Kernel :=
  if σ.holder l = some σ.current then none
  else if (σ.semaTryDown (.lock l)).2 then
    some ((σ.semaTryDown (.lock l)).1.takeLock l)
  else some σ

/-- The running thread gives `l` up: the part of `lock_release` before its
`sema_up`. -/
def dropLock (σ : Kernel) (l : LockId) : Kernel :=
  let σ' : Kernel := { σ with
    holder := update σ.holder l none
    lockList := update σ.lockList σ.current
      ((σ.lockList σ.current).erase l) }
  σ'.adjustPriority σ.current

/-- `lock_release` up to the `thread_yield` of its `sema_up`, which runs with
interrupts off. -/
def lockRelease (σ : Kernel) (l : LockId) : Option Kernel :=
  if σ.holder l = some σ.current then
    ((σ.dropLock l).semaUpWake (.lock l)).map fun σ' =>
      (σ'.pushCode [.lockRelease l]).threadYield
  else none

/-- `cond_wait` up to its `lock_release`. -/
def condWait (σ : Kernel) (c : CondId) (l : LockId) : Option Kernel :=
  if σ.holder l = some σ.current then
    let r := SemaRef.waiter σ.nextWaiter
    let σ' : Kernel := { (σ.setValue r 0).setWaiters r [] with
      condWaiters := update σ.condWaiters c
        (σ.condWaiters c ++ [⟨σ.nextWaiter, σ.maxPriority l⟩])
      nextWaiter := σ.nextWaiter + 1 }
    some (σ'.pushCode
      [.call (.lockRelease l), .call (.semaDown r), .call (.lockAcquire l)])
  else none

/-- `cond_signal` up to its `sema_up`. -/
def condSignal (σ : Kernel) (c : CondId) (l : LockId) : Option Kernel :=
  if σ.holder l = some σ.current then
    match listMax SemaphoreElem.priority (σ.condWaiters c) with
    | none => some σ
    | some e =>
      let σ' : Kernel := { σ with
        condWaiters := update σ.condWaiters c
          ((σ.condWaiters c).erase e) }
      some (σ'.pushCode [.call (.semaUp (.waiter e.semaphore))])
  else none

/-- One test of the loop of `cond_broadcast`. -/
def condBroadcast (σ : Kernel) (c : CondId) (l : LockId) : Kernel :=
  match σ.condWaiters c with
  | [] => σ
  | _ :: _ => σ.pushCode [.call (.condSignal c l), .call (.condBroadcast c l)]

/-- `init_thread` for the fresh page `t`. -/
def initThread (σ : Kernel) (t : Tid) (priority : ℤ) : Kernel :=
  { σ with
    status := update σ.status t .blocked
    priority := update σ.priority t priority
    instrinsicPriority := update σ.instrinsicPriority t priority
    wakeupTime := update σ.wakeupTime t 0
    lockList := update σ.lockList t []
    waitingLock := update σ.waitingLock t none
    tid := update σ.tid t 0
    code := update σ.code t []
    allList := σ.allList ++ [t] }

/-- `thread_create` up to its `allocate_tid`. The page allocator does not hand
out the page of a thread that is alive. -/
def threadCreate (σ : Kernel) (t : Tid) (priority : ℤ) : Option Kernel :=
  if t ∈ σ.allList ∨ priority < priMin ∨ priMax < priority then none
  else some ((σ.initThread t priority).pushCode
    [.call (.lockAcquire σ.tidLock), .allocateTid t])

/-- `allocate_tid` while `tid_lock` is held, up to the release of the lock. -/
def allocateTid (σ : Kernel) (t : Tid) : Kernel :=
  let σ' : Kernel := { σ with nextTid := σ.nextTid + 1 }
  σ'.pushCode [.call (.lockRelease σ.tidLock), .startThread t σ.nextTid]

/-- `thread_create` after `allocate_tid`, up to its `thread_yield`. -/
def startThread (σ : Kernel) (t : Tid) (tid : ℕ) : Option Kernel :=
  let σ' : Kernel := { σ with tid := update σ.tid t tid }
  (σ'.threadUnblock t).map fun σ'' => σ''.pushCode [.threadYield]

/-- `thread_set_priority` up to its `thread_yield`. -/
def threadSetPriority (σ : Kernel) (newPriority : ℤ) : Kernel :=
  let σ' : Kernel := { σ with
    instrinsicPriority := update σ.instrinsicPriority σ.current
      newPriority }
  (σ'.adjustPriority σ.current).pushCode [.threadYield]

/-- `thread_sleep` up to the switch of its `thread_block`. -/
def threadSleep (σ : Kernel) (wakeupTime : ℤ) : Kernel :=
  ((σ.sleepInsert wakeupTime).pushCode [.threadSleep]).threadBlock

def threadExit (σ : Kernel) : Kernel :=
  let σ' : Kernel := { σ.setStatus σ.current .dying with
    allList := σ.allList.erase σ.current }
  σ'.schedule

end CS162.Threads.Kernel
