import CS162.Threads.Synch
import CS162.Lib.Run

/-!
# The steps of the thread system

If the running thread is in its own code it may call any operation; inside an operation it
executes the next section.  While interrupts are on, the timer or a device may interrupt it.
The runs of `step` are all the schedules the kernel can produce.
-/

namespace CS162.Threads

/-- The operations a program calls on its own; the semaphores inside locks and
condition variables are only reached through these. -/
def Op.isPublic : Op → Bool
  | .semaDown (.sema _) => true
  | .semaTryDown (.sema _) => true
  | .semaUp (.sema _) => true
  | .semaDown _ => false
  | .semaTryDown _ => false
  | .semaUp _ => false
  | _ => true

/-- Interrupts are on at the start of the section. -/
def Frame.intrOn : Frame → Bool
  | .semaDown _ => false
  | .lockAcquire _ => false
  | .lockRelease _ => false
  | .threadSleep => false
  | _ => true

namespace Kernel

def intrOn (σ : Kernel) : Bool :=
  match σ.code σ.current with
  | [] => true
  | f :: _ => f.intrOn

/-- The first section of an operation. -/
def enter (n : ℕ) (σ : Kernel) : Op → Option Kernel
  | .semaDown r => some (σ.semaDownLoop r)
  | .semaTryDown r => some (σ.semaTryDown r).1
  | .semaUp r => (σ.semaUpWake r).map fun σ' => σ'.pushCode [.threadYield]
  | .lockAcquire l => lockAcquire n σ l
  | .lockTryAcquire l => σ.lockTryAcquire l
  | .lockRelease l => σ.lockRelease l
  | .condWait c l => σ.condWait c l
  | .condSignal c l => σ.condSignal c l
  | .condBroadcast c l => some (σ.condBroadcast c l)
  | .threadCreate t p => σ.threadCreate t p
  | .threadSetPriority p => some (σ.threadSetPriority p)
  | .threadYield => some σ.threadYield
  | .timerSleep k => some (σ.pushCode [.call (.threadSleep (σ.ticks + k))])
  | .threadSleep w => some (σ.threadSleep w)
  | .threadExit => some σ.threadExit

/-- One section of the running thread, already taken off its code. -/
def execFrame (n : ℕ) (σ : Kernel) : Frame → Option Kernel
  | .call op => enter n σ op
  | .semaDown r => some (σ.semaDownLoop r)
  | .lockAcquire l => some (σ.lockAcquireLoop l)
  | .lockRelease l => some ((σ.flushLockPriority l).pushCode [.threadYield])
  | .threadSleep => some σ
  | .threadYield => some σ.threadYield
  | .allocateTid t => some (σ.allocateTid t)
  | .startThread t tid => σ.startThread t tid
  | .idle => some (σ.pushCode [.idle]).threadBlock

end Kernel

inductive Act where
  /-- The running thread executes its next section; `depth` bounds the
  recursion of `flush_priority` in it. -/
  | exec (depth : ℕ)
  /-- The running thread, in its own code, is about to call `op`. -/
  | call (op : Op)
  /-- The timer interrupts the running thread. -/
  | timer
  /-- A device interrupts the running thread and its handler calls
  `sema_up`. -/
  | intrSemaUp (s : ℕ)
  /-- A device interrupts the running thread and its handler calls
  `sema_try_down`. -/
  | intrSemaTryDown (s : ℕ)
  /-- `switch_yield (true)` at the end of the boot. -/
  | switchYield
  deriving DecidableEq, Repr

namespace Kernel

def step (σ : Kernel) : Act → Option Kernel
  | .exec n =>
    match σ.code σ.current with
    | [] => none
    | f :: fs => execFrame n (σ.setCode σ.current fs) f
  | .call op =>
    if σ.code σ.current = [] ∧ op.isPublic then
      some (σ.setCode σ.current [.call op])
    else none
  | .timer => if σ.intrOn then σ.timerInterrupt else none
  | .intrSemaUp s => if σ.intrOn then σ.semaUpWake (.sema s) else none
  | .intrSemaTryDown s =>
    if σ.intrOn then some (σ.semaTryDown (.sema s)).1 else none
  | .switchYield =>
    if σ.code σ.current = [] then some { σ with enableYield := true } else none

end Kernel

/-- The state after `thread_start`: the initial thread `0` runs and the idle
thread `1` waits in its loop. The semaphore `s` has been initialised to `v s`,
and all locks are free. -/
def boot (enableYield : Bool) (v : ℕ → ℕ) : Kernel where
  status t := if t = 0 then .running else if t = 1 then .blocked else .dying
  priority t := if t = 0 then priDefault else priMin
  instrinsicPriority t := if t = 0 then priDefault else priMin
  wakeupTime _ := 0
  lockList _ := []
  waitingLock _ := none
  tid t := t + 1
  code t := if t = 1 then [.idle] else []
  value
    | .sema s => v s % 2 ^ 32
    | .lock _ => 1
    | .waiter _ => 0
  waiters _ := []
  holder _ := none
  maxPriority _ := priMin
  condWaiters _ := []
  readyList := []
  sleepList := []
  allList := [0, 1]
  current := 0
  idleThread := 1
  tidLock := 0
  nextTid := 3
  nextWaiter := 0
  ticks := 0
  threadTicks := 0
  enableYield := enableYield

end CS162.Threads
