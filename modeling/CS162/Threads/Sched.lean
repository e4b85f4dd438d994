import CS162.Lib.ListMax
import CS162.Threads.State

/-!
# Scheduling, sleeping and donating

The functions of `threads/thread.c` that move threads between the queues and
the ones that propagate priorities. `list_insert_ordered` inserts before the
first larger element, which is `List.orderedInsert` for the strict order. An
`ASSERT` that fails gives `none`.
-/

namespace CS162.Threads.Kernel

/-- `next_thread_to_run`: the chosen thread, and the state with the thread
taken off `ready_list`. -/
def nextThreadToRun (σ : Kernel) : Tid × Kernel :=
  match listMax σ.priority σ.readyList with
  | none => (σ.idleThread, σ)
  | some t => (t, { σ with readyList := σ.readyList.erase t })

/-- `thread_schedule_tail`: the new running thread starts its time slice. -/
def threadScheduleTail (σ : Kernel) : Kernel :=
  { σ.setStatus σ.current .running with threadTicks := 0 }

/-- `schedule`, called after the running thread has left the state
`running`. -/
def schedule (σ : Kernel) : Kernel :=
  threadScheduleTail { σ.nextThreadToRun.2 with current := σ.nextThreadToRun.1 }

def threadBlock (σ : Kernel) : Kernel :=
  (σ.setStatus σ.current .blocked).schedule

def threadUnblock (σ : Kernel) (t : Tid) : Option Kernel :=
  if σ.status t = .blocked then
    some { σ.setStatus t .ready with readyList := σ.readyList ++ [t] }
  else none

/-- The part of `thread_yield` before `schedule`: the running thread goes to
the end of `ready_list`, unless it is the idle thread. -/
def yieldReady (σ : Kernel) : Kernel :=
  { σ.setStatus σ.current .ready with
    readyList :=
      if σ.current = σ.idleThread then σ.readyList
      else σ.readyList ++ [σ.current] }

def threadYield (σ : Kernel) : Kernel :=
  if σ.enableYield then σ.yieldReady.schedule else σ

/-- The loop of `thread_alarm` over the sleeping threads, earliest first. -/
def threadAlarmLoop (curTicks : ℤ) : List Tid → Kernel → Option Kernel
  | [], σ => some σ
  | t :: ts, σ =>
    if σ.wakeupTime t ≤ curTicks then
      ({ σ with sleepList := ts }.threadUnblock t).bind
        (threadAlarmLoop curTicks ts)
    else some σ

def threadAlarm (σ : Kernel) (curTicks : ℤ) : Option Kernel :=
  threadAlarmLoop curTicks σ.sleepList σ

/-- `thread_tick`, without the statistics: the state, and whether the handler
asks for a yield on return. -/
def threadTick (σ : Kernel) : Kernel × Bool :=
  ({ σ with threadTicks := σ.threadTicks + 1 },
    decide (timeSlice ≤ σ.threadTicks + 1))

/-- `thread_tick` and the return from the handler, which yields if it was asked
to. -/
def tickReturn (σ : Kernel) : Kernel :=
  if σ.threadTick.2 then σ.threadTick.1.threadYield else σ.threadTick.1

/-- The timer interrupt: `timer_interrupt` and the return from
`intr_handler`. -/
def timerInterrupt (σ : Kernel) : Option Kernel :=
  ({ σ with ticks := σ.ticks + 1 }.threadAlarm (σ.ticks + 1)).map tickReturn

/-- The part of `thread_sleep` before `thread_block`. -/
def sleepInsert (σ : Kernel) (wakeupTime : ℤ) : Kernel :=
  let σ' : Kernel := { σ with
    wakeupTime := Function.update σ.wakeupTime σ.current wakeupTime }
  { σ' with
    sleepList := σ'.sleepList.orderedInsert
      (fun a b => σ'.wakeupTime a < σ'.wakeupTime b) σ.current }

/-- `adjust_priority`. When a held lock exists but none of them lifts the
thread above its own priority, the priority is left as it was. -/
def adjustPriority (σ : Kernel) (t : Tid) : Kernel :=
  match listMax σ.maxPriority (σ.lockList t) with
  | some l =>
    if σ.instrinsicPriority t < σ.maxPriority l then
      σ.setPriority t (σ.maxPriority l)
    else σ
  | none => σ.setPriority t (σ.instrinsicPriority t)

/-- `flush_priority`; the first argument bounds the depth of the recursion,
and the result is `none` when the bound is too small. -/
def flushPriority : ℕ → Kernel → Tid → Option Kernel
  | 0, _, _ => none
  | n + 1, σ, t =>
    match σ.waitingLock t with
    | none => some σ
    | some l =>
      if σ.maxPriority l < σ.priority t then
        let σ' := σ.setMaxPriority l (σ.priority t)
        match σ.holder l with
        | none => some σ'
        | some h => flushPriority n (σ'.adjustPriority h) h
      else some σ

/-- The largest priority among the threads of `ts`, `PRI_MIN` if there is
none. -/
def maxPriorityOf (σ : Kernel) (ts : List Tid) : ℤ :=
  match listMax σ.priority ts with
  | none => priMin
  | some t => σ.priority t

def flushLockPriority (σ : Kernel) (l : LockId) : Kernel :=
  σ.setMaxPriority l (σ.maxPriorityOf (σ.waiters (.lock l)))

end CS162.Threads.Kernel
