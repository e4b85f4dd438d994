import CS162.Lib.Ring
import CS162.Lib.Run
import CS162.Lib.Slots

/-!
# The interrupt queue

`intq_getc` and `intq_putc` of `devices/intq.c` under any number of threads and an interrupt
handler.  Interrupts are off in these functions; the places of a thread are those where others
run.  A thread tests its condition before it acquires the lock, and `wait` asserts it
afterwards.
-/

namespace CS162.Devices

open Option Function List Slots

inductive Cond where
  | notEmpty
  | notFull
  deriving DecidableEq, Repr

inductive Call where
  | getc
  | putc (byte : UInt8)
  deriving DecidableEq, Repr

def Call.needs : Call → Cond
  | .getc => .notEmpty
  | .putc _ => .notFull

/-- Where a thread is while others run: outside, ready to take the lock, in the waiters of the
lock, in `wait` with the lock, woken from it, and in `lock_release` with the lock free. -/
inductive Place where
  | outside
  | acquiring (c : Call)
  | queued (c : Call)
  | waiting (c : Call)
  | woken (c : Call)
  | released (c : Call)
  deriving DecidableEq, Repr

def Place.Inside : Place → Prop
  | .waiting _ => True
  | .woken _ => True
  | _ => False

/-- `struct intq`, the threads and the bytes that went in and came out.  The semaphore of the
lock is 0 exactly while the lock has a holder. -/
structure Intq where
  buf : ℕ → UInt8
  head : ℕ
  tail : ℕ
  waiter : Cond → Option ℕ
  holder : Option ℕ
  lockWaiters : List ℕ
  place : ℕ → Place
  put : List UInt8
  got : List UInt8
  failed : Bool

namespace Intq

def bufSize : ℕ :=
  64

def intqInit : Intq :=
  ⟨fun _ => 0, 0, 0, fun _ => none, none, [], fun _ => .outside, [], [], false⟩

/-- Not `intq_empty`, or not `intq_full`. -/
def Holds (q : Intq) : Cond → Prop
  | .notEmpty => q.head ≠ q.tail
  | .notFull => Ring.next bufSize q.head ≠ q.tail

instance (q : Intq) (c : Cond) : Decidable (q.Holds c) := by
  cases c <;> exact inferInstanceAs (Decidable (_ ≠ _))

def fail (q : Intq) : Intq :=
  { q with failed := true }

def move (q : Intq) (t : ℕ) (p : Place) : Intq :=
  { q with place := update q.place t p }

/-- `wait`, up to where the thread is blocked. -/
def wait (q : Intq) (t : ℕ) (c : Call) : Intq :=
  if q.Holds c.needs then q.fail
  else { q.move t (.waiting c) with waiter := update q.waiter c.needs (some t) }

def signal (q : Intq) (cond : Cond) : Intq :=
  if q.Holds cond then
    match q.waiter cond with
    | none => q
    | some t =>
      match q.place t with
      | .waiting c => { q.move t (.woken c) with waiter := update q.waiter cond none }
      -- `thread_unblock` of a thread that is not blocked
      | _ => q.fail
  else q.fail

def complete (q : Intq) : Call → Intq
  | .getc =>
    signal { q with tail := Ring.next bufSize q.tail, got := q.got ++ [q.buf q.tail] } .notFull
  | .putc byte =>
    signal { q with buf := update q.buf q.head byte, head := Ring.next bufSize q.head,
                    put := q.put ++ [byte] } .notEmpty

/-- The loop of `sema_down` in `lock_acquire`, and `wait` when the lock is there. -/
def acquire (q : Intq) (t : ℕ) (c : Call) : Intq :=
  match q.holder with
  | none => wait { q with holder := some t } t c
  | some _ => { q.move t (.queued c) with lockWaiters := q.lockWaiters ++ [t] }

/-- The loop of a call, until the thread blocks or returns. -/
def enter (q : Intq) (t : ℕ) (c : Call) : Intq :=
  if q.Holds c.needs then (q.move t .outside).complete c
  else if q.holder = some t then q.fail
  else q.acquire t c

/-- `lock_release` up to the first yield, with the waiter that `sema_up` picks. -/
def release (q : Intq) (t : ℕ) (c : Call) (picked : Option ℕ) : Option Intq :=
  if q.holder = some t then
    let q := { q.move t (.released c) with holder := none }
    match picked with
    | none => if q.lockWaiters = [] then some q else none
    | some u =>
      match q.place u with
      | .queued c' =>
        if u ∈ q.lockWaiters then
          some { q.move u (.acquiring c') with lockWaiters := q.lockWaiters.erase u }
        else none
      | _ => none
  else some q.fail

/-- A thread outside begins a call, a thread goes on from where it is, or the interrupt handler
calls a function of the queue where it need not wait. -/
inductive Action where
  | call (t : ℕ) (c : Call)
  | resume (t : ℕ) (picked : Option ℕ)
  | intr (c : Call)

def step (q : Intq) (a : Action) : Option Intq :=
  if q.failed then none
  else match a with
    | .call t c => if q.place t = .outside then some (q.enter t c) else none
    | .resume t picked =>
      match q.place t with
      | .acquiring c => some (q.acquire t c)
      | .woken c => q.release t c picked
      | .released c => some (q.enter t c)
      | _ => none
    | .intr c => if q.Holds c.needs then some (q.complete c) else none

def contents (q : Intq) : List UInt8 :=
  Ring.elems bufSize q.buf q.tail q.head

/-- The bytes came out in the order in which they went in, and the rest is in the queue. -/
structure Fifo (q : Intq) : Prop where
  head_lt : q.head < bufSize
  tail_lt : q.tail < bufSize
  order : q.put = q.got ++ q.contents

/-- A thread has the lock exactly in `wait`, is among the waiters of the lock exactly when it is
queued, and is the waiter for a condition only in `wait`. -/
structure ThreadOk (q : Intq) (t : ℕ) : Prop where
  holder : q.holder = some t ↔ (q.place t).Inside
  queued : t ∈ q.lockWaiters ↔ ∃ c, q.place t = .queued c
  waiter : ∀ cond, q.waiter cond = some t → ∃ c, q.place t = .waiting c ∧ c.needs = cond

structure Inv (q : Intq) : Prop extends Fifo q where
  threads : ∀ t, ThreadOk q t
  nodup : q.lockWaiters.Nodup
  ok : q.failed = false

/-- The action is not one in which a thread gets the lock and finds that its condition has come
true. -/
def Fresh (q : Intq) : Action → Prop
  | .resume t _ => ∀ c, q.place t = .acquiring c → q.holder = none → ¬ q.Holds c.needs
  | _ => True

variable {q q' : Intq} {t : ℕ} {c : Call} {a : Action}

theorem intqInit_inv : Inv intqInit where
  head_lt := by decide
  tail_lt := by decide
  order := (Ring.elems_self _ 0).symm
  threads _ := ⟨⟨nofun, nofun⟩, ⟨nofun, nofun⟩, nofun⟩
  nodup := nodup_nil
  ok := rfl

/-- The queue is the same, and so is all that concerns the threads other than `t`. -/
structure Others (q q' : Intq) (t : ℕ) : Prop where
  queue : q'.buf = q.buf ∧ q'.head = q.head ∧ q'.tail = q.tail ∧ q'.put = q.put ∧ q'.got = q.got
  failed : q'.failed = q.failed
  place : ∀ u, u ≠ t → q'.place u = q.place u
  holder : ∀ u, u ≠ t → (q'.holder = some u ↔ q.holder = some u)
  queued : ∀ u, u ≠ t → (u ∈ q'.lockWaiters ↔ u ∈ q.lockWaiters)
  waiter : ∀ u, u ≠ t → ∀ cond, q'.waiter cond = some u → q.waiter cond = some u

theorem Inv.of_others (h : Inv q) (hs : Others q q' t) (ht : ThreadOk q' t)
    (hnodup : q'.lockWaiters.Nodup) : Inv q' := by
  obtain ⟨hbuf, hhead, htail, hput, hgot⟩ := hs.queue
  refine ⟨⟨hhead ▸ h.head_lt, htail ▸ h.tail_lt, ?_⟩, fun u => ?_, hnodup, hs.failed ▸ h.ok⟩
  · rw [hput, hgot, contents, hbuf, hhead, htail]
    exact h.order
  · by_cases hu : u = t
    · exact hu ▸ ht
    · have hok := h.threads u
      refine ⟨?_, ?_, fun cond hw => ?_⟩
      · rw [hs.holder u hu, hs.place u hu]
        exact hok.holder
      · rw [hs.queued u hu, hs.place u hu]
        exact hok.queued
      · rw [hs.place u hu]
        exact hok.waiter cond (hs.waiter u hu cond hw)

def Place.Free (p : Place) : Prop :=
  ¬ p.Inside ∧ ∀ c, p ≠ .queued c

theorem ThreadOk.not_waiter (h : ThreadOk q t) (hfree : ¬ (q.place t).Inside) (cond : Cond) :
    q.waiter cond ≠ some t := by
  intro hw
  obtain ⟨c, hc, -⟩ := h.waiter cond hw
  exact hfree (by rw [hc]; trivial)

theorem Inv.leave (h : Inv q) (hfree : Place.Free (q.place t)) : Inv (q.move t .outside) := by
  have hok := h.threads t
  have hplace : (q.move t .outside).place t = .outside := update_self ..
  refine h.of_others ⟨⟨rfl, rfl, rfl, rfl, rfl⟩, rfl,
    fun u hu => update_of_ne hu .., fun _ _ => Iff.rfl, fun _ _ => Iff.rfl,
    fun _ _ _ => id⟩ ⟨?_, ?_, fun cond hw => absurd hw (hok.not_waiter hfree.1 cond)⟩ h.nodup
  · rw [hplace]
    exact iff_of_false (fun hh => hfree.1 (hok.holder.mp hh)) id
  · rw [hplace]
    refine iff_of_false (fun hm => ?_) nofun
    obtain ⟨c, hc⟩ := hok.queued.mp hm
    exact hfree.2 c hc

theorem Inv.signal {cond : Cond} (h : Inv q) (hcond : q.Holds cond) : Inv (q.signal cond) := by
  rw [Intq.signal, if_pos hcond]
  cases hw : q.waiter cond with
  | none => exact h
  | some t =>
    have hok := h.threads t
    obtain ⟨c, hc, hneeds⟩ := hok.waiter cond hw
    dsimp only
    rw [hc]
    have hplace : update q.place t (.woken c) t = .woken c := update_self ..
    refine h.of_others ⟨⟨rfl, rfl, rfl, rfl, rfl⟩, rfl,
      fun u hu => update_of_ne hu .., fun _ _ => Iff.rfl, fun _ _ => Iff.rfl,
      fun u _ cond' hu => (of_update_none hu).2⟩ ⟨?_, ?_, fun cond' hu => ?_⟩ h.nodup
    · change q.holder = some t ↔ (update q.place t (.woken c) t).Inside
      rw [hplace, hok.holder, hc]
      exact Iff.rfl
    · change t ∈ q.lockWaiters ↔ ∃ c', update q.place t (.woken c) t = .queued c'
      rw [hplace, hok.queued, hc]
      simp
    · -- the thread waits for one condition only
      obtain ⟨hne, hw'⟩ := of_update_none hu
      obtain ⟨c', hc', hneeds'⟩ := hok.waiter cond' hw'
      rw [hc] at hc'
      cases hc'
      exact absurd (hneeds'.symm.trans hneeds) hne

theorem Inv.complete (h : Inv q) (hneeds : q.Holds c.needs) : Inv (q.complete c) := by
  obtain ⟨⟨hh, ht, horder⟩, hthreads, hnodup, hok⟩ := h
  have hn : 0 < bufSize := by decide
  cases c with
  | getc =>
    refine Inv.signal ⟨⟨hh, Ring.next_lt hn _, ?_⟩,
      fun t => ⟨(hthreads t).1, (hthreads t).2, (hthreads t).3⟩, hnodup, hok⟩ ?_
    · rw [horder, contents, Ring.elems_pop hh ht hneeds, append_assoc]
      rfl
    · exact fun heq => hneeds (Ring.next_inj hh ht heq)
  | putc byte =>
    refine Inv.signal ⟨⟨Ring.next_lt hn _, ht, ?_⟩,
      fun t => ⟨(hthreads t).1, (hthreads t).2, (hthreads t).3⟩, hnodup, hok⟩ hneeds
    change q.put ++ [byte] = q.got ++ Ring.elems bufSize _ _ _
    rw [Ring.elems_push hh ht hneeds, horder, append_assoc]
    rfl

theorem Inv.acquire (h : Inv q) (hfree : Place.Free (q.place t))
    (hneeds : q.holder = none → ¬ q.Holds c.needs) : Inv (q.acquire t c) := by
  have hok := h.threads t
  have hmem : t ∉ q.lockWaiters := fun hm => by
    obtain ⟨c', hc'⟩ := hok.queued.mp hm
    exact hfree.2 c' hc'
  rw [Intq.acquire]
  cases hholder : q.holder with
  | none =>
    have hwait : wait { q with holder := some t } t c =
        { q.move t (.waiting c) with
          holder := some t
          waiter := update q.waiter c.needs (some t) } := if_neg (hneeds hholder)
    have hplace : update q.place t (.waiting c) t = .waiting c := update_self ..
    have hnone : ∀ u, u ≠ t → (some t = some u ↔ q.holder = some u) := fun u hu => by
      rw [hholder]
      exact iff_of_false (fun heq => hu (some.inj heq).symm) nofun
    rw [hwait]
    refine h.of_others ⟨⟨rfl, rfl, rfl, rfl, rfl⟩, rfl, fun u hu => update_of_ne hu ..,
      hnone, fun _ _ => Iff.rfl, fun u hu cond hw => ?_⟩ ⟨?_, ?_, fun cond hw => ?_⟩ h.nodup
    · rcases of_update_some hw with ⟨-, heq⟩ | ⟨-, hw⟩
      · exact absurd heq.symm hu
      · exact hw
    · change some t = some t ↔ (update q.place t (.waiting c) t).Inside
      rw [hplace]
      exact iff_of_true rfl trivial
    · exact iff_of_false hmem (by simp [move])
    · rcases of_update_some hw with ⟨hcc, -⟩ | ⟨-, hw⟩
      · exact ⟨c, hplace, hcc.symm⟩
      · exact absurd hw (hok.not_waiter hfree.1 cond)
  | some v =>
    have hplace : update q.place t (.queued c) t = .queued c := update_self ..
    refine h.of_others ⟨⟨rfl, rfl, rfl, rfl, rfl⟩, rfl,
      fun u hu => update_of_ne hu .., fun _ _ => Iff.rfl, fun u hu => ?_,
      fun _ _ _ => id⟩ ⟨?_, ?_, fun cond hw => absurd hw (hok.not_waiter hfree.1 cond)⟩ ?_
    · simp [hu]
    · refine iff_of_false (fun hh => hfree.1 (hok.holder.mp hh)) ?_
      change ¬ (update q.place t (.queued c) t).Inside
      rw [hplace]
      exact id
    · exact iff_of_true (by simp) ⟨c, hplace⟩
    · exact nodup_append.mpr ⟨h.nodup, nodup_singleton t, fun x hx y hy hxy =>
        hmem (mem_singleton.mp hy ▸ hxy ▸ hx)⟩

theorem Inv.release {picked : Option ℕ} (h : Inv q) (hwoken : q.place t = .woken c)
    (hr : q.release t c picked = some q') : Inv q' := by
  have hok := h.threads t
  have hholder : q.holder = some t := hok.holder.mpr (by rw [hwoken]; trivial)
  have hplace : update q.place t (.released c) t = .released c := update_self ..
  -- the thread gives the lock back
  have hback : Inv { q.move t (.released c) with holder := none } := by
    refine h.of_others ⟨⟨rfl, rfl, rfl, rfl, rfl⟩, rfl, fun u hu => update_of_ne hu ..,
      fun u hu => ?_, fun _ _ => Iff.rfl, fun _ _ _ => id⟩ ⟨?_, ?_, fun cond hw => ?_⟩ h.nodup
    · rw [hholder]
      exact iff_of_false nofun fun heq => hu (some.inj heq).symm
    · change none = some t ↔ (update q.place t (.released c) t).Inside
      rw [hplace]
      exact iff_of_false nofun id
    · change t ∈ q.lockWaiters ↔ ∃ c', update q.place t (.released c) t = .queued c'
      rw [hplace, hok.queued, hwoken]
      simp
    · obtain ⟨c', hc', -⟩ := hok.waiter cond hw
      rw [hwoken] at hc'
      cases hc'
  rw [Intq.release, if_pos hholder] at hr
  generalize ({ q.move t (.released c) with holder := none } : Intq) = q1 at hr hback
  cases picked with
  | none =>
    obtain ⟨-, hr⟩ := ite_none_right_eq_some.mp hr
    cases hr
    exact hback
  | some u =>
    have hok := hback.threads u
    dsimp only at hr
    split at hr
    next c' hqueued =>
      obtain ⟨hmem, hr⟩ := ite_none_right_eq_some.mp hr
      cases hr
      have hplace : update q1.place u (.acquiring c') u = .acquiring c' := update_self ..
      refine hback.of_others ⟨⟨rfl, rfl, rfl, rfl, rfl⟩, rfl,
        fun v hv => update_of_ne hv .., fun _ _ => Iff.rfl, fun v hv => mem_erase_of_ne hv,
        fun _ _ _ => id⟩ ⟨?_, ?_, fun cond hw => ?_⟩ (hback.nodup.erase u)
      · change q1.holder = some u ↔ (update q1.place u (.acquiring c') u).Inside
        rw [hplace, hok.holder, hqueued]
        exact Iff.rfl
      · refine iff_of_false hback.nodup.not_mem_erase ?_
        simp [move]
      · refine absurd hw (hok.not_waiter ?_ cond)
        rw [hqueued]
        exact id
    next => cases hr

theorem wait_failed (hneeds : q.Holds c.needs) : q.wait t c = q.fail :=
  if_pos hneeds

theorem Inv.enter (h : Inv q) (hfree : Place.Free (q.place t)) : Inv (q.enter t c) := by
  rw [Intq.enter]
  split_ifs with hneeds hself
  · exact (h.leave hfree).complete hneeds
  · exact absurd ((h.threads t).holder.mp hself) hfree.1
  · exact h.acquire hfree fun _ => hneeds

/-- Only `wait` can find its assertion false, and it does exactly where the condition has come
true while the thread was waiting for the lock. -/
theorem Inv.step (h : Inv q) (hs : q.step a = some q') :
    q.Fresh a ∧ Inv q' ∨ ¬ q.Fresh a ∧ q'.failed = true ∧ Fifo q' := by
  unfold Intq.step at hs
  rw [if_neg (by rw [h.ok]; exact Bool.false_ne_true)] at hs
  cases a with
  | call t c =>
    obtain ⟨hout, hs⟩ := ite_none_right_eq_some.mp hs
    cases hs
    exact .inl ⟨trivial, h.enter (by rw [hout]; exact ⟨id, nofun⟩)⟩
  | intr c =>
    obtain ⟨hneeds, hs⟩ := ite_none_right_eq_some.mp hs
    cases hs
    exact .inl ⟨trivial, h.complete hneeds⟩
  | resume t picked =>
    dsimp only at hs
    cases hplace : q.place t with
    | acquiring c =>
      rw [hplace] at hs
      cases hs
      have hfree : Place.Free (q.place t) := by rw [hplace]; exact ⟨id, nofun⟩
      by_cases hfresh : q.Fresh (.resume t picked)
      · exact .inl ⟨hfresh, h.acquire hfree (hfresh c hplace)⟩
      · refine .inr ⟨hfresh, ?_⟩
        have hlock : q.holder = none ∧ q.Holds c.needs := by
          by_contra hnot
          refine hfresh fun c' hc' hnone hholds => hnot ⟨hnone, ?_⟩
          rw [hplace] at hc'
          cases hc'
          exact hholds
        have hfail : q.acquire t c = fail { q with holder := some t } := by
          rw [Intq.acquire, hlock.1]
          exact wait_failed hlock.2
        rw [hfail]
        exact ⟨rfl, h.head_lt, h.tail_lt, h.order⟩
    | woken c =>
      rw [hplace] at hs
      refine .inl ⟨fun c' hc' => ?_, h.release hplace hs⟩
      rw [hplace] at hc'
      cases hc'
    | released c =>
      rw [hplace] at hs
      cases hs
      refine .inl ⟨fun c' hc' => ?_, h.enter (by rw [hplace]; exact ⟨id, nofun⟩)⟩
      rw [hplace] at hc'
      cases hc'
    | outside => rw [hplace] at hs; cases hs
    | queued c => rw [hplace] at hs; cases hs
    | waiting c => rw [hplace] at hs; cases hs

theorem Inv.run {as : List Action} (h : Inv q) (hr : Run.run Intq.step q as = some q') :
    Fifo q' ∧ (q'.failed = false ↔ Run.Meets Intq.step Fresh q as) := by
  induction as generalizing q with
  | nil =>
    cases hr
    exact ⟨h.toFifo, iff_of_true h.ok trivial⟩
  | cons a as ih =>
    obtain ⟨q1, hs, hr⟩ := Run.run_cons_eq_some.mp hr
    rcases h.step hs with ⟨hfresh, hinv⟩ | ⟨hfresh, hfailed, hfifo⟩
    · obtain ⟨hfifo, hiff⟩ := ih hinv hr
      refine ⟨hfifo, hiff.trans ⟨fun hm => ⟨hfresh, fun q2 hq2 => ?_⟩, fun hm => hm.2 q1 hs⟩⟩
      rw [hs] at hq2
      cases hq2
      exact hm
    · -- nothing happens after an assertion has failed
      cases as with
      | nil =>
        cases hr
        refine ⟨hfifo, iff_of_false ?_ fun hm => hfresh hm.1⟩
        rw [hfailed]
        exact nofun
      | cons b bs =>
        obtain ⟨q2, hs2, -⟩ := Run.run_cons_eq_some.mp hr
        unfold Intq.step at hs2
        rw [if_pos hfailed] at hs2
        cases hs2

/-- In every run the bytes come out in the order in which they went in, none lost and none
twice; and no assertion fails exactly when no thread gets the lock after its condition has
come true. -/
theorem run_fifo {as : List Action} (hr : Run.run step intqInit as = some q) :
    q.put = q.got ++ q.contents ∧ (q.failed = false ↔ Run.Meets step Fresh intqInit as) := by
  obtain ⟨hfifo, hiff⟩ := intqInit_inv.run hr
  exact ⟨hfifo.order, hiff⟩

/-- One thread waits, the handler adds two bytes, and the thread takes the first. -/
theorem run_fifo_reader : ∃ q, Run.run step intqInit
      [.call 1 .getc, .intr (.putc 65), .intr (.putc 66), .resume 1 none, .resume 1 none] =
        some q ∧
    q.put = q.got ++ q.contents ∧ q.got = [65] := by
  have hrun : ((Run.run step intqInit [.call 1 .getc, .intr (.putc 65), .intr (.putc 66),
      .resume 1 none, .resume 1 none]).map fun q => q.got) = some [65] := by
    decide +kernel
  obtain ⟨q, hq, hgot⟩ := map_eq_some_iff.mp hrun
  exact ⟨q, hq, (run_fifo hq).1, hgot⟩

/-- Two threads wait for a byte, the first in `wait` and the second for the lock.  The handler
adds a byte, the first thread gives the lock back, and the second finds the queue not empty in
`wait`. -/
theorem run_wait_fails : (Run.run step intqInit
    [.call 1 .getc, .call 2 .getc, .intr (.putc 65), .resume 1 (some 2), .resume 2 none]).map
      (fun q => (q.failed, q.contents)) = some (true, [65]) := by
  decide +kernel

end Intq

end CS162.Devices
