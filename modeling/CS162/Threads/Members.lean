import CS162.Threads.Locks

/-!
# Members that a section leaves alone

Some members of the state are changed by one or two operations only. `Leaves f σ σ'`
says this of all of them at once, so that the sections are gone through once.
-/

namespace CS162.Threads.Kernel

open Function

/-- What the section `f` leaves alone. The semaphore of a waiter stays at zero
unless the section is its `sema_up`. -/
structure Leaves (f : Frame) (σ σ' : Kernel) : Prop where
  enableYield : σ'.enableYield = σ.enableYield
  ticks : σ'.ticks = σ.ticks
  sleepList : (∀ w, f ≠ .call (.threadSleep w)) → σ'.sleepList = σ.sleepList
  wakeupTime : (∀ w, f ≠ .call (.threadSleep w)) → (∀ t p, f ≠ .call (.threadCreate t p)) →
    σ'.wakeupTime = σ.wakeupTime
  condWaiters : (∀ c l, f ≠ .call (.condWait c l)) → (∀ c l, f ≠ .call (.condSignal c l)) →
    σ'.condWaiters = σ.condWaiters
  nextWaiter : (∀ c l, f ≠ .call (.condWait c l)) → σ'.nextWaiter = σ.nextWaiter
  waiter : ∀ w, f ≠ .call (.semaUp (.waiter w)) → (∀ c l, f ≠ .call (.condWait c l)) →
    σ.value (.waiter w) = 0 → σ'.value (.waiter w) = 0

namespace Leaves

variable {σ σ' : Kernel} {f : Frame}

theorem of_eq (hy : σ'.enableYield = σ.enableYield) (ht : σ'.ticks = σ.ticks)
    (hs : σ'.sleepList = σ.sleepList) (hw : σ'.wakeupTime = σ.wakeupTime)
    (hc : σ'.condWaiters = σ.condWaiters) (hn : σ'.nextWaiter = σ.nextWaiter)
    (hv : ∀ w, σ'.value (.waiter w) = σ.value (.waiter w)) : Leaves f σ σ' :=
  ⟨hy, ht, fun _ => hs, fun _ _ => hw, fun _ _ => hc, fun _ => hn, fun w _ _ h => (hv w).trans h⟩

theorem setValue {r : SemaRef} (hr : σ.value r ≠ 0) (v : ℕ) : Leaves f σ (σ.setValue r v) := by
  refine ⟨rfl, rfl, fun _ => rfl, fun _ _ => rfl, fun _ _ => rfl, fun _ => rfl, ?_⟩
  intro w _ _ hw
  have hne : SemaRef.waiter w ≠ r := fun e => hr (e ▸ hw)
  exact (update_of_ne hne v σ.value).trans hw

theorem semaUp {r : SemaRef} {st ws rl v k} (hf : ∀ w, r = .waiter w → f = .call (.semaUp r)) :
    Leaves f σ { σ with
      status := st, waiters := ws, readyList := rl
      value := update σ.value r v, code := k } := by
  refine ⟨rfl, rfl, fun _ => rfl, fun _ _ => rfl, fun _ _ => rfl, fun _ => rfl, ?_⟩
  intro w hne _ hw
  have hr : SemaRef.waiter w ≠ r := by
    rintro rfl
    exact hne (hf w rfl)
  exact (update_of_ne hr _ _).trans hw

theorem execFrame {n : ℕ} (he : execFrame n σ f = some σ') : Leaves f σ σ' := by
  cases Executes.execFrame he with
  | down r _ hv => exact setValue hv _
  | up r => exact semaUp fun _ _ => rfl
  | condWait c l =>
    exact ⟨rfl, rfl, fun _ => rfl, fun _ _ => rfl, fun h _ => absurd rfl (h c l),
      fun h => absurd rfl (h c l), fun _ _ h => absurd rfl (h c l)⟩
  | condSignal c l w =>
    exact ⟨rfl, rfl, fun _ => rfl, fun _ _ => rfl, fun _ h => absurd rfl (h c l),
      fun _ => rfl, fun _ _ _ h => h⟩
  | threadCreate t p =>
    exact ⟨rfl, rfl, fun _ => rfl, fun _ h => absurd rfl (h t p), fun _ _ => rfl,
      fun _ => rfl, fun _ _ _ h => h⟩
  | threadSleep w =>
    exact ⟨rfl, rfl, fun h => absurd rfl (h w), fun h _ => absurd rfl (h w), fun _ _ => rfl,
      fun _ => rfl, fun _ _ _ h => h⟩
  | _ => exact of_eq rfl rfl rfl rfl rfl rfl fun _ => rfl

end Leaves

end CS162.Threads.Kernel
