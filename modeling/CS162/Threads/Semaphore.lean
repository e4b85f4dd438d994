import CS162.Threads.Locks

/-!
# Semaphores neither lose nor invent wake-ups

The value of a semaphore is the initial value plus the ups minus the downs, counted modulo
`2 ^ 32`.  `woken` are the threads that `sema_up` has unblocked and that have not tested the
value again.  While threads wait, the value never exceeds their number.
-/

namespace CS162.Threads

open Option Threads.Frame Kernel Finset Run Function Nat

/-- The section takes one from `r` if the value is positive. -/
def Frame.takes (r : SemaRef) : Frame → Bool
  | .call (.semaDown r') => r' = r
  | .call (.semaTryDown r') => r' = r
  | .semaDown r' => r' = r
  | _ => false

/-- The section may change the value or the waiters of `r`. -/
def Frame.touches (r : SemaRef) : Frame → Bool
  | .call (.semaDown r') => r' = r
  | .call (.semaTryDown r') => r' = r
  | .call (.semaUp r') => r' = r
  | .call (.lockAcquire l) => r = .lock l
  | .call (.lockTryAcquire l) => r = .lock l
  | .call (.lockRelease l) => r = .lock l
  | .call (.condWait _ _) => match r with
      | .waiter _ => true
      | _ => false
  | .semaDown r' => r' = r
  | .lockAcquire l => r = .lock l
  | _ => false

namespace Kernel

/-- The threads that have been unblocked from `r` and have not tested its value
again. -/
def woken (σ : Kernel) (r : SemaRef) : Finset Tid :=
  σ.allList.toFinset.filter fun t =>
    waitsOn (σ.code t) = some r ∧ σ.status t ≠ .blocked

/-- The number of `sema_up`s on `r` that the step performs. -/
def ups (r : SemaRef) (σ : Kernel) : Act → ℕ
  | .exec _ => if (σ.code σ.current).head? = some (.call (.semaUp r)) then 1 else 0
  | .intrSemaUp s => if r = .sema s then 1 else 0
  | _ => 0

/-- The number of `sema_down`s and successful `sema_try_down`s on `r` that the
step completes. -/
def downs (r : SemaRef) (σ : Kernel) : Act → ℕ
  | .exec _ => match (σ.code σ.current).head? with
      | some f => if f.takes r ∧ σ.value r ≠ 0 then 1 else 0
      | none => 0
  | .intrSemaTryDown s => if r = .sema s ∧ σ.value r ≠ 0 then 1 else 0
  | _ => 0

variable {σ σ' : Kernel}

theorem mem_woken {r : SemaRef} {t : Tid} :
    t ∈ σ.woken r ↔ t ∈ σ.allList ∧ waitsOn (σ.code t) = some r ∧ σ.status t ≠ .blocked := by
  simp [woken]

end Kernel

/-- A thread other than the running one that is not blocked stays so. -/
def Survives (σ σ' : Kernel) : Prop :=
  ∀ t, t ≠ σ.current → t ∈ σ.allList → σ.status t ≠ .blocked →
    t ∈ σ'.allList ∧ σ'.status t ≠ .blocked

variable {σ : Kernel} {b : Bool} {v : ℕ → ℕ} {acts : List Act}

/-- The two states agree on the semaphore `r`. -/
structure SameSema (r : SemaRef) (σ σ' : Kernel) : Prop where
  value : σ'.value r = σ.value r
  waiters : σ'.waiters r = σ.waiters r

namespace Kernel

variable {σ σ' : Kernel} {t u : Tid} {r r' : SemaRef} {n : ℕ} {f : Frame} {fs : List Frame}
  {a : Act}

theorem Executes.survives (h : σ.Executes f σ') : Survives σ σ' := by
  intro t hne ht hb
  cases h with
  | plain _ _ hst | wait _ _ _ hst | lockWait _ _ _ _ hst _ | threadSleep _ hst =>
    exact ⟨ht, hst t hne hb⟩
  | up _ hw | lockDrop _ _ hw => exact ⟨ht, hw.unblocks t hb⟩
  | threadCreate u p hu =>
    have hne : t ≠ u := fun e => hu (e ▸ ht)
    refine ⟨List.mem_append_left _ ht, ?_⟩
    simpa [pushCode, setCode, initThread, hne] using hb
  | threadExit hst => exact ⟨(List.mem_erase_of_ne hne).mpr ht, hst t hne hb⟩
  | _ => exact ⟨ht, hb⟩

theorem Executes.sameSema (hf : f.touches r = false) (h : σ.Executes f σ') : SameSema r σ σ' := by
  cases h with
  | wait r' hr =>
    have hne : r ≠ r' := by
      rintro rfl
      cases hr <;> simp [touches] at hf
    exact ⟨rfl, update_of_ne hne _ _⟩
  | down r' hr =>
    have hne : r ≠ r' := by
      rintro rfl
      rcases hr with rfl | rfl | rfl <;> simp [touches] at hf
    exact ⟨update_of_ne hne _ _, rfl⟩
  | up r' hw =>
    have hne : r ≠ r' := by simpa [touches, eq_comm] using hf
    exact ⟨update_of_ne hne _ _, hw.other r hne⟩
  | lockWait l hl =>
    have hne : r ≠ .lock l := by cases hl <;> simpa [touches] using hf
    exact ⟨rfl, update_of_ne hne _ _⟩
  | lockTake l hl =>
    have hne : r ≠ .lock l := by
      rcases hl with ⟨rfl, -⟩ | ⟨hl, -⟩
      · simpa [touches] using hf
      · cases hl <;> simpa [touches] using hf
    exact ⟨update_of_ne hne _ _, rfl⟩
  | lockDrop l _ hw =>
    have hne : r ≠ .lock l := by simpa [touches] using hf
    exact ⟨update_of_ne hne _ _, hw.other r hne⟩
  | condWait c l =>
    have hne : r ≠ .waiter σ.nextWaiter := by
      rintro rfl
      cases hf
    exact ⟨update_of_ne hne _ _, update_of_ne hne _ _⟩
  | _ => exact ⟨rfl, rfl⟩

/-- While threads wait for `r`, the value does not exceed the number of threads
that have been woken and have not tested it again. -/
def SemaOk (r : SemaRef) (σ : Kernel) : Prop :=
  σ.waiters r ≠ [] → σ.value r ≤ (σ.woken r).card

theorem woken_erase_subset (hw : WellPlaced σ)
    (he : execFrame n (σ.setCode σ.current fs) f = some σ') :
    (σ.woken r).erase σ.current ⊆ σ'.woken r := by
  obtain ⟨gs, -, hcode⟩ := step_exec_code hw he
  intro t ht
  obtain ⟨hne, ht⟩ := mem_erase.mp ht
  obtain ⟨hall, hwait, hb⟩ := mem_woken.mp ht
  obtain ⟨hall', hb'⟩ := (Executes.execFrame he).survives t hne hall hb
  refine mem_woken.mpr ⟨hall', ?_, hb'⟩
  rw [hcode, update_of_ne hne]
  exact hwait

theorem semaOk_of_subset (h : SemaOk r σ) (hv : σ'.value r ≤ σ.value r)
    (hws : σ'.waiters r = σ.waiters r) (hsub : σ.woken r ⊆ σ'.woken r) : SemaOk r σ' := by
  intro hne
  rw [hws] at hne
  exact hv.trans ((h hne).trans (card_le_card hsub))

theorem semaOk_of_take {c : Tid} (h : SemaOk r σ) (hv : σ'.value r + 1 = σ.value r)
    (hws : σ'.waiters r = σ.waiters r) (hsub : (σ.woken r).erase c ⊆ σ'.woken r) : SemaOk r σ' := by
  intro hne
  rw [hws] at hne
  have h1 := h hne
  have h2 := card_le_card hsub
  have h3 := pred_card_le_card_erase (s := σ.woken r) (a := c)
  omega

theorem semaOk_of_wakes {st : Tid → ThreadStatus} {ws : SemaRef → List Tid} (hw : WellPlaced σ)
    (h : SemaOk r σ) (hwk : σ.Wakes r st ws) (hv : σ'.value r = (σ.value r + 1) % 2 ^ 32)
    (hws : σ'.waiters = ws) (hst : σ'.status = st) (hall : σ'.allList = σ.allList)
    (hcode : ∀ t, t ≠ σ.current → σ'.code t = σ.code t) (hsub : σ.woken r ⊆ σ'.woken r) :
    SemaOk r σ' := by
  intro hne
  rcases hwk.self with hnil | ⟨t, ht, hb⟩
  · rw [hws] at hne
    exact absurd hnil hne
  have hwt := hw.waiting r t ht
  have hcur : t ≠ σ.current := by
    rintro rfl
    simp [hw.current_running] at hwt
  have ht' : t ∈ σ'.woken r := by
    refine mem_woken.mpr ⟨?_, (hcode t hcur).symm ▸ hwt.2, hst ▸ hb⟩
    rw [hall, hw.mem_all_iff, hwt.1]
    simp
  have hnot : t ∉ σ.woken r := fun hm => (mem_woken.mp hm).2.2 hwt.1
  have h1 : σ.value r ≤ (σ.woken r).card := h (List.ne_nil_of_mem ht)
  have h2 : (insert t (σ.woken r)).card ≤ (σ'.woken r).card := card_le_card (insert_subset ht' hsub)
  rw [card_insert_of_notMem hnot] at h2
  omega

theorem current_not_mem_woken (hc : σ.code σ.current = f :: fs)
    (hf : f.touches r = false ∨ ∃ op, f = .call op) : σ.current ∉ σ.woken r := by
  intro hm
  have hwait := (mem_woken.mp hm).2.1
  rw [hc] at hwait
  rcases hf with hf | ⟨op, rfl⟩
  · cases f with
    | semaDown r' =>
      simp only [waitsOn, some.injEq] at hwait
      simp [touches, hwait] at hf
    | lockAcquire l =>
      simp only [waitsOn, some.injEq] at hwait
      simp [touches, hwait] at hf
    | _ => cases hwait
  · cases hwait

theorem execFrame_semaOk (hw : WellPlaced σ) (hc : σ.code σ.current = f :: fs) (h : SemaOk r σ)
    (he : execFrame n (σ.setCode σ.current fs) f = some σ') : SemaOk r σ' := by
  have herase := woken_erase_subset (r := r) hw he
  have hsub : (f.touches r = false ∨ ∃ op, f = .call op) → σ.woken r ⊆ σ'.woken r := by
    intro hf
    rwa [erase_eq_of_notMem (current_not_mem_woken hc hf)] at herase
  have hexec := Executes.execFrame he
  cases hf : f.touches r with
  | false =>
    have hsame := hexec.sameSema hf
    exact semaOk_of_subset h hsame.value.le hsame.waiters (hsub (.inl hf))
  | true =>
    have hzero : σ'.value r = 0 → SemaOk r σ' := fun hv _ => hv ▸ zero_le _
    cases hexec with
    | plain hp =>
      refine semaOk_of_subset h le_rfl rfl (hsub (.inr ?_))
      cases f with
      | call op => exact ⟨op, rfl⟩
      | semaDown | lockAcquire => cases hp
      | _ => cases hf
    | tryDownFails r' => exact semaOk_of_subset h le_rfl rfl (hsub (.inr ⟨_, rfl⟩))
    | wait r' hr hv =>
      obtain rfl : r' = r := by cases hr <;> simpa [touches] using hf
      exact hzero hv
    | down r' hr hv =>
      obtain rfl : r' = r := by rcases hr with rfl | rfl | rfl <;> simpa [touches] using hf
      refine semaOk_of_take h ?_ rfl herase
      simp only [setValue, setCode, update_self] at hv ⊢
      omega
    | up r' hwk =>
      obtain rfl : r' = r := by simpa [touches] using hf
      exact semaOk_of_wakes hw h { hwk with } (update_self _ _ _) rfl rfl rfl
        (fun t ht => by simp [setCode, ht]) (hsub (.inr ⟨_, rfl⟩))
    | lockWait l hl _ hv =>
      obtain rfl : r = .lock l := by cases hl <;> simpa [touches] using hf
      exact hzero hv
    | lockTake l hl hv =>
      obtain rfl : r = .lock l := by
        rcases hl with ⟨rfl, -⟩ | ⟨hl, -⟩
        · simpa [touches] using hf
        · cases hl <;> simpa [touches] using hf
      refine semaOk_of_take h ?_ rfl herase
      simp only [setCode, update_self] at hv ⊢
      omega
    | lockDrop l _ hwk =>
      obtain rfl : r = .lock l := by simpa [touches] using hf
      exact semaOk_of_wakes hw h { hwk with } (update_self _ _ _) rfl rfl rfl
        (fun t ht => by simp [setCode, ht]) (hsub (.inr ⟨_, rfl⟩))
    | condWait c l =>
      by_cases hr : r = .waiter σ.nextWaiter
      · exact hzero (by simp [setCode, hr])
      · refine semaOk_of_subset h ?_ ?_ (hsub (.inr ⟨_, rfl⟩))
        · simp [setCode, hr]
        · simp [setCode, hr]
    | _ => cases hf

theorem interrupt_semaOk (hw : WellPlaced σ) (ha : ∀ n, a ≠ .exec n) (hop : ∀ op, a ≠ .call op)
    (h : SemaOk r σ) (hs : σ.step a = some σ') : SemaOk r σ' := by
  have hcode := interrupt_code ha hop hs
  have hall := (step_sameLocks ha hs).allList
  have hsub : σ.Unblocks σ'.status → σ.woken r ⊆ σ'.woken r := by
    intro hst t ht
    obtain ⟨hmem, hwait, hb⟩ := mem_woken.mp ht
    exact mem_woken.mpr ⟨hall ▸ hmem, hcode ▸ hwait, hst t hb⟩
  cases step_interrupted ha hop hs with
  | timer hst => exact semaOk_of_subset h le_rfl rfl (hsub hst)
  | semaUp s hwk =>
    by_cases hr : r = .sema s
    · subst hr
      exact semaOk_of_wakes hw h hwk (update_self _ _ _) rfl rfl rfl (fun _ _ => rfl)
        (hsub hwk.unblocks)
    · exact semaOk_of_subset h (update_of_ne hr _ _).le (hwk.other r hr) (hsub hwk.unblocks)
  | tryDown s =>
    refine semaOk_of_subset h ?_ rfl (hsub fun _ h => h)
    by_cases hr : r = .sema s
    · simp [setValue, hr]
    · exact (update_of_ne hr _ _).le
  | tryDownFails | switchYield => exact h

theorem step_semaOk (hw : WellPlaced σ) (h : SemaOk r σ) (hs : σ.step a = some σ') :
    SemaOk r σ' := by
  cases a with
  | exec n =>
    obtain ⟨f, fs, hc, he⟩ := exec_cases hs
    exact execFrame_semaOk hw hc h he
  | call op =>
    obtain ⟨⟨hnil, -⟩, hs⟩ := ite_none_right_eq_some.mp hs
    cases hs
    refine semaOk_of_subset h le_rfl rfl ?_
    intro t ht
    obtain ⟨hmem, hwait, hb⟩ := mem_woken.mp ht
    have hne : t ≠ σ.current := by
      rintro rfl
      simp [hnil, waitsOn] at hwait
    exact mem_woken.mpr ⟨hmem, by simpa [setCode, hne] using hwait, hb⟩
  | _ => exact interrupt_semaOk hw (by simp) (by simp) h hs

theorem touches_of_takes (h : f.takes r = true) : f.touches r = true := by
  cases f with
  | call op => cases op <;> first | exact h | cases h
  | semaDown r' => exact h
  | _ => cases h

theorem onSema_of_touches {s : ℕ} (h : f.touches (.sema s) = true) : f.onSema = true := by
  cases f with
  | call op => cases op <;> first | rfl | simp [touches] at h
  | semaDown r' => rfl
  | lockAcquire l => rfl
  | _ => cases h

theorem exec_value (s : ℕ) (hc : σ.code σ.current = f :: fs)
    (he : execFrame n (σ.setCode σ.current fs) f = some σ') :
    (ups (.sema s) σ (.exec n) = 1 ∧ downs (.sema s) σ (.exec n) = 0 ∧
      σ'.value (.sema s) = (σ.value (.sema s) + 1) % 2 ^ 32) ∨ (ups (.sema s) σ (.exec n) = 0 ∧
      σ'.value (.sema s) + downs (.sema s) σ (.exec n) = σ.value (.sema s)) := by
  have hups : f ≠ .call (.semaUp (.sema s)) → ups (.sema s) σ (.exec n) = 0 :=
    fun hf => by simp [ups, hc, hf]
  cases hf : f.touches (.sema s) with
  | false =>
    have hdown : f.takes (.sema s) ≠ true := by
      intro ht
      rw [touches_of_takes ht] at hf
      cases hf
    refine .inr ⟨hups (by rintro rfl; simp [touches] at hf), ?_⟩
    simpa [downs, hc, hdown, setCode] using ((Executes.execFrame he).sameSema hf).value
  | true =>
    have hnone : σ.value (.sema s) = 0 → downs (.sema s) σ (.exec n) = 0 :=
      fun hv => by simp [downs, hc, hv]
    have hone : f.takes (.sema s) = true → σ.value (.sema s) ≠ 0 →
        downs (.sema s) σ (.exec n) = 1 := fun ht hv => by simp [downs, hc, ht, hv]
    cases Executes.execFrame he with
    | plain hp =>
      rw [onSema_of_touches hf] at hp
      cases hp
    | wait r hr hv =>
      obtain rfl : r = .sema s := by cases hr <;> simpa [touches] using hf
      refine .inr ⟨hups (by rintro rfl; cases hr), ?_⟩
      rw [hnone hv]
      rfl
    | down r hr hv =>
      obtain rfl : r = .sema s := by
        rcases hr with rfl | rfl | rfl <;> simpa [touches] using hf
      refine .inr ⟨hups (by rcases hr with rfl | rfl | rfl <;> simp), ?_⟩
      rw [hone (by rcases hr with rfl | rfl | rfl <;> simp [takes]) hv]
      simp only [setValue, setCode, update_self] at hv ⊢
      omega
    | tryDownFails r hv =>
      obtain rfl : r = .sema s := by simpa [touches] using hf
      refine .inr ⟨hups (by simp), ?_⟩
      rw [hnone hv]
      rfl
    | up r =>
      obtain rfl : r = .sema s := by simpa [touches] using hf
      exact .inl ⟨by simp [ups, hc], by simp [downs, hc, takes], update_self _ _ _⟩
    | lockWait l hl => cases hl <;> simp [touches] at hf
    | lockTake l hl =>
      rcases hl with ⟨rfl, -⟩ | ⟨hl, -⟩
      · simp [touches] at hf
      · cases hl <;> simp [touches] at hf
    | _ => simp [touches] at hf

theorem step_value (s : ℕ) (hs : σ.step a = some σ') :
    (ups (.sema s) σ a = 1 ∧ downs (.sema s) σ a = 0 ∧
      σ'.value (.sema s) = (σ.value (.sema s) + 1) % 2 ^ 32) ∨ (ups (.sema s) σ a = 0 ∧
      σ'.value (.sema s) + downs (.sema s) σ a = σ.value (.sema s)) := by
  by_cases ha : ∃ n, a = .exec n
  · obtain ⟨n, rfl⟩ := ha
    obtain ⟨f, fs, hc, he⟩ := exec_cases hs
    exact exec_value s hc he
  by_cases hop : ∃ op, a = .call op
  · obtain ⟨op, rfl⟩ := hop
    obtain ⟨-, hs⟩ := ite_none_right_eq_some.mp hs
    cases hs
    exact .inr ⟨rfl, rfl⟩
  cases step_interrupted (not_exists.mp ha) (not_exists.mp hop) hs with
  | timer | switchYield => exact .inr ⟨rfl, rfl⟩
  | semaUp s' =>
    by_cases e : s = s'
    · subst e
      exact .inl ⟨by simp [ups], rfl, update_self _ _ _⟩
    · exact .inr ⟨by simp [ups, e], update_of_ne (by simpa using e) _ _⟩
  | tryDown s' hv =>
    refine .inr ⟨rfl, ?_⟩
    by_cases e : s = s'
    · subst e
      simp only [downs, hv, ne_eq, not_false_eq_true, and_self, if_true, setValue, update_self]
      omega
    · simp [downs, setValue, e]
  | tryDownFails s' hv =>
    refine .inr ⟨rfl, ?_⟩
    by_cases e : s = s'
    · subst e
      simp [downs, hv]
    · simp [downs, e]

end Kernel

section

variable (hr : run step (boot b v) acts = some σ)

include hr

theorem run_semaOk (r : SemaRef) : Kernel.SemaOk r σ := by
  have h : WellPlaced σ ∧ Kernel.SemaOk r σ := by
    refine run_invariant' (I := fun σ => WellPlaced σ ∧ Kernel.SemaOk r σ) ?_
      ⟨boot_wellPlaced b v, fun hne => absurd rfl hne⟩ hr
    rintro σ a σ' ⟨hw, h⟩ hs
    exact ⟨step_wellPlaced hw hs, step_semaOk hw h hs⟩
  exact h.2

theorem run_value_lt (s : ℕ) : σ.value (.sema s) < 2 ^ 32 := by
  refine run_invariant' (I := fun σ => σ.value (.sema s) < 2 ^ 32) ?_ (mod_lt _ (by norm_num)) hr
  intro σ a σ' h hs
  rcases step_value s hs with ⟨-, -, hv⟩ | ⟨-, hv⟩
  · rw [hv]
    exact mod_lt _ (by norm_num)
  · omega

theorem run_value_modEq (s : ℕ) :
    (σ.value (.sema s) : ℤ) ≡ (boot b v).value (.sema s) + total step (ups (.sema s))
      (boot b v) acts - total step (downs (.sema s)) (boot b v) acts [ZMOD 2 ^ 32] := by
  refine run_modEq (q := fun σ => (σ.value (.sema s) : ℤ)) ?_ hr
  intro σ a σ' hs
  rcases step_value s hs with ⟨hu, hd, hv⟩ | ⟨hu, hv⟩
  · rw [hu, hd, hv]
    push_cast
    simpa using Int.mod_modEq _ _
  · rw [hu, ← hv]
    push_cast
    simp

end

/-- In every state of every run the value of a semaphore is its initial value
plus the ups minus the downs, modulo `2 ^ 32`. While threads wait for it, the
value is at most the number of threads that have been woken and have not tested
it again; so a positive value never meets a waiting thread without a woken
one. -/
theorem run_semaphore {b : Bool} {v : ℕ → ℕ} {acts : List Act} {σ : Kernel} (s : ℕ)
    (hr : run step (boot b v) acts = some σ) :
    (σ.value (.sema s) : ℤ) =
      (v s + total step (ups (.sema s)) (boot b v) acts
        - total step (downs (.sema s)) (boot b v) acts) % 2 ^ 32 ∧
    (σ.waiters (.sema s) ≠ [] →
      σ.value (.sema s) ≤ (σ.woken (.sema s)).card) ∧
    ¬ (0 < σ.value (.sema s) ∧ σ.waiters (.sema s) ≠ [] ∧
      σ.woken (.sema s) = ∅) := by
  have hok := run_semaOk hr (.sema s)
  refine ⟨?_, hok, ?_⟩
  · have hlt := run_value_lt hr s
    have hmod := run_value_modEq hr s
    have hinit : ((boot b v).value (.sema s) : ℤ) ≡ v s [ZMOD 2 ^ 32] := by
      show (((v s % 2 ^ 32 : ℕ) : ℤ)) ≡ v s [ZMOD 2 ^ 32]
      push_cast
      exact Int.mod_modEq _ _
    have h := hmod.trans (Int.ModEq.sub_right _ (Int.ModEq.add_right _ hinit))
    rw [← h, Int.emod_eq_of_lt (by omega) (by exact_mod_cast hlt)]
  · rintro ⟨hpos, hne, hnone⟩
    have := hok hne
    rw [hnone, card_empty] at this
    omega

/-- The initial thread creates a thread of priority 40 that waits for a semaphore. -/
def downWaits : List Act :=
  .call (.threadCreate 2 40) :: List.replicate 8 (.exec 1) ++
    [.call (.semaDown (.sema 0)), .exec 2]

theorem run_semaphore_downWaits :
    ∃ σ, run step (boot true fun _ => 0) downWaits = some σ ∧ σ.waiters (.sema 0) = [2] ∧
      (σ.value (.sema 0) : ℤ) = (0 + 0 - 0) % 2 ^ 32 ∧
      σ.value (.sema 0) ≤ (σ.woken (.sema 0)).card := by
  have hobs : (run step (boot true fun _ => 0) downWaits).map (Kernel.waiters · (.sema 0)) =
      some [2] := rfl
  obtain ⟨σ, hr, hwaiters⟩ := Option.map_eq_some_iff.mp hobs
  obtain ⟨hvalue, hwoken, -⟩ := run_semaphore 0 hr
  exact ⟨σ, hr, hwaiters, hvalue, hwoken (by rw [hwaiters]; exact List.cons_ne_nil 2 [])⟩

/-- One `sema_up` on a semaphore of the largest value brings it to zero. -/
theorem semaUp_wraps :
    ∃ σ, run step (boot true fun _ => 2 ^ 32 - 1)
        [.call (.semaUp (.sema 0)), .exec 0] = some σ ∧
      (boot true fun _ => 2 ^ 32 - 1).value (.sema 0) = 2 ^ 32 - 1 ∧
      total step (ups (.sema 0)) (boot true fun _ => 2 ^ 32 - 1)
        [.call (.semaUp (.sema 0)), .exec 0] = 1 ∧
      total step (downs (.sema 0)) (boot true fun _ => 2 ^ 32 - 1)
        [.call (.semaUp (.sema 0)), .exec 0] = 0 ∧
      σ.value (.sema 0) = 0 :=
  ⟨_, rfl, rfl, rfl, rfl, rfl⟩

end CS162.Threads
