import CS162.Userprog.Records

/-!
# `process_wait`

The first wait for a child blocks until the child is at the end of `process_exit` and returns
the status in its record, and every other wait returns `-1` at once.  The steps of the process
and all steps of its children use only records that are still there.
-/

namespace CS162.Userprog

open Processes Function

variable {σ σ' : Processes} {e : ProcStep} {p q c : ℕ} {proc proc' child : Proc} {pn : Pnode}

def Exited (σ : Processes) (c : ℕ) : Prop :=
  ∃ child, σ.procs c = some child ∧ child.phase = .exited

/-- A child that was waited for has exited. -/
def Reaped (σ : Processes) : Prop :=
  ∀ p proc, σ.procs p = some proc → ∀ c ∈ proc.waited, Exited σ c

theorem Exited.change (h : Exited σ c) (hp : σ.procs p = some proc)
    (hprocs : σ'.procs = update σ.procs p (some proc'))
    (hphase : proc.phase = .exited → proc'.phase = .exited) : Exited σ' c := by
  obtain ⟨child, hc, hexited⟩ := h
  by_cases hcp : c = p
  · subst hcp
    rw [hp] at hc
    cases hc
    exact ⟨proc', by rw [hprocs, update_self], hphase hexited⟩
  · exact ⟨child, by rw [hprocs, update_of_ne hcp, hc], hexited⟩

theorem Reaped.change (h : Reaped σ) (hp : σ.procs p = some proc)
    (hprocs : σ'.procs = update σ.procs p (some proc'))
    (hphase : proc.phase = .exited → proc'.phase = .exited)
    (hwaited : ∀ c ∈ proc'.waited, c ∈ proc.waited ∨ Exited σ c) : Reaped σ' := by
  intro q procq hq c hc
  rcases Slots.of_update_some (hprocs ▸ hq) with ⟨rfl, rfl⟩ | ⟨-, hq⟩
  · rcases hwaited c hc with hc | hc
    · exact (h q proc hp c hc).change hp hprocs hphase
    · exact hc.change hp hprocs hphase
  · exact (h q procq hq c hc).change hp hprocs hphase

theorem Exited.create (hs : Sound σ) (hp : σ.procs p = some proc) (h : Exited σ c) :
    Exited (σ.create p proc) c := by
  obtain ⟨child, hc, hexited⟩ := h
  by_cases hcp : c = p
  · subst hcp
    rw [hp] at hc
    cases hc
    exact ⟨_, create_procs_self hs hp, hexited⟩
  · exact ⟨child, create_procs_other hs hc hcp, hexited⟩

theorem Reaped.create (hs : Sound σ) (h : Reaped σ) (hp : σ.procs p = some proc) :
    Reaped (σ.create p proc) := by
  intro q procq hq c hc
  rcases create_procs hs hp hq with ⟨-, rfl⟩ | ⟨rfl, rfl⟩ | ⟨-, -, hq'⟩
  · cases hc
  · exact (h q proc hp c hc).create hs hp
  · exact (h q procq hq' c hc).create hs hp

theorem Reaped.wake (h : Reaped σ) (ws : List ℕ) : Reaped (σ.wake ws) := by
  rcases σ.wake_cases ws with heq | ⟨w, proc, pid, b, hw, hphase, heq⟩
  · rw [heq]
    exact h
  · rw [heq]
    refine h.change hw rfl (fun hexited => ?_) fun _ => .inl
    rw [hphase] at hexited
    cases hexited

theorem Reaped.step (hs : Sound σ) (h : Reaped σ) (hstep : e.step σ = some σ') : Reaped σ' := by
  cases moves_of_step hstep with
  | create hp _ => exact h.create hs hp
  | found hp hphase _ | block hp hphase _ _ | pass hp hphase _ _ | store hp hphase _ _ =>
    refine h.change hp rfl (fun hexited => ?_) fun _ => .inl
    rw [hphase] at hexited
    cases hexited
  | notFound hp _ _ | freeChild hp _ _ => exact h.change hp rfl id fun _ => .inl
  | @reap p pid proc pn hp hphase hr =>
    obtain ⟨-, pn', child, -, hchild, -, hagree⟩ :=
      hs.entry p proc pid hp ((hs.consistent p proc hp).awaits pid (.inr hphase))
    refine h.change hp rfl (fun hexited => ?_) fun c hc => ?_
    · rw [hphase] at hexited
      cases hexited
    · rcases List.mem_cons.mp hc with rfl | hc
      · exact .inr ⟨child, hchild, hagree.reaping hphase⟩
      · exact .inl hc
  | exit hp hphase =>
    refine h.change hp rfl (fun hexited => ?_) fun _ => .inl
    rcases hphase with hphase | hphase <;> rw [hphase] at hexited <;> cases hexited
  | @up p r proc pn hp hphase _ _ _ =>
    have hend : Reaped (σ.set p { proc with phase := .exited }) :=
      h.change hp rfl (fun _ => rfl) fun _ => .inl
    exact hend.wake pn.waiters

theorem boot_reaped : Reaped boot := by
  intro p proc hp c hc
  obtain ⟨-, rfl⟩ := boot_procs hp
  cases hc

theorem run_reaped {steps : List ProcStep}
    (hr : Run.run ProcStep.step boot steps = some σ) : Sound σ ∧ Reaped σ :=
  Run.run_invariant' (I := fun σ => Sound σ ∧ Reaped σ)
    (fun _ _ _ hi hs => ⟨hi.1.step hs, Reaped.step hi.1 hi.2 hs⟩) ⟨boot_sound, boot_reaped⟩ hr

def Proc.Alive (proc : Proc) : Prop :=
  proc.phase ≠ .freeing ∧ proc.phase ≠ .exited

/-- `process_wait` of the process `p` returns the status of each child once. -/
structure WaitExact (σ : Processes) (p : ℕ) (proc : Proc) : Prop where
  /-- The first wait for a child goes to `sema_down`. -/
  first : proc.phase = .running → ∀ c ∈ proc.born, c ∉ proc.waited →
    (ProcStep.wait p c).step σ = some (σ.set p { proc with phase := .waiting c false })
  /-- Any other one returns `-1`. -/
  other : proc.phase = .running → ∀ pid : ℤ, (∀ c ∈ proc.born, (c : ℤ) = pid → c ∈ proc.waited) →
    (ProcStep.wait p pid).step σ = some (σ.set p { proc with returned := some (pid, -1) })
  /-- It does not get past `sema_down` before the child has exited. -/
  blocks : ∀ c b, proc.phase = .waiting c b → ¬ Exited σ c →
    ∀ (e : ProcStep) (σ' : Processes), e.actor = p → e.step σ = some σ' →
      σ'.phaseOf p = some (.waiting c true)
  /-- When the child has exited, it is not left blocked. -/
  wakes : ∀ c b, proc.phase = .waiting c b → Exited σ c → b = false ∧
    ∃ σ', (ProcStep.down p).step σ = some σ' ∧
      σ'.procs p = some { proc with phase := .reaping c }
  /-- It returns the status that the child has recorded, and the child counts as waited
  for. -/
  returns : ∀ c, proc.phase = .reaping c → ∃ child σ',
    σ.procs c = some child ∧ child.phase = .exited ∧ (ProcStep.reap p).step σ = some σ' ∧
      σ'.procs p = some { proc with
        phase := .running
        childList := proc.childList.erase c
        returned := some (c, child.recorded)
        waited := c :: proc.waited }

section

variable (h : Sound σ) (hp : σ.procs p = some proc)

include h hp

theorem Sound.awaited (hawaits : proc.Awaits c) :
    ∃ pn child, σ.records c = some pn ∧ σ.procs c = some child ∧ Agrees p proc c pn child := by
  obtain ⟨-, pn, child, hr, hc, -, hagree⟩ :=
    h.entry p proc c hp ((h.consistent p proc hp).awaits c hawaits)
  exact ⟨pn, child, hr, hc, hagree⟩

theorem Sound.wait_first (hphase : proc.phase = .running) (hc : c ∈ proc.childList) :
    (ProcStep.wait p c).step σ = some (σ.set p { proc with phase := .waiting c false }) := by
  refine ProcStep.step_of_exec ?_
  rw [ProcStep.exec, as_eq hp, if_pos hphase, h.walk_eq hp, Proc.findChildPnode_of_mem hc]

theorem Sound.wait_other {pid : ℤ} (hphase : proc.phase = .running)
    (hpid : ∀ c ∈ proc.childList, (c : ℤ) ≠ pid) :
    (ProcStep.wait p pid).step σ = some (σ.set p { proc with returned := some (pid, -1) }) := by
  refine ProcStep.step_of_exec ?_
  have hfind : proc.findChildPnode pid = none :=
    List.find?_eq_none.mpr fun c hc => by simpa using hpid c hc
  rw [ProcStep.exec, as_eq hp, if_pos hphase, h.walk_eq hp, hfind]

theorem Sound.wait_blocks {b : Bool} (hphase : proc.phase = .waiting c b)
    (hexited : ¬ Exited σ c) (hactor : e.actor = p) (hstep : e.step σ = some σ') :
    σ'.phaseOf p = some (.waiting c true) := by
  obtain ⟨pn, child, hr, hc, hagree⟩ := h.awaited hp (.inl ⟨b, hphase⟩)
  have hvalue := hagree.value
  rw [if_neg fun hh => hexited ⟨child, hc, hh.1⟩] at hvalue
  subst hactor
  have hmoves := moves_of_step hstep
  -- every other step of the process needs another phase
  cases hmoves with
  | @block p pid proc' pn' hp' hphase' hr' hvalue' =>
    rw [ProcStep.actor, hp'] at hp
    cases hp
    rw [hphase'] at hphase
    cases hphase
    exact congrArg _ (update_self ..)
  | @pass p pid proc' pn' hp' hphase' hr' hvalue' =>
    rw [ProcStep.actor, hp'] at hp
    cases hp
    rw [hphase'] at hphase
    cases hphase
    rw [hr] at hr'
    cases hr'
    exact absurd hvalue hvalue'
  | create hp' hphase' | found hp' hphase' _ | notFound hp' hphase' _ | reap hp' hphase' _
  | store hp' hphase' _ _ | freeChild hp' hphase' _ | up hp' hphase' _ _ _ =>
    rw [ProcStep.actor, hp'] at hp
    cases hp
    rw [hphase'] at hphase
    cases hphase
  | exit hp' hphase' =>
    rw [ProcStep.actor, hp'] at hp
    cases hp
    rcases hphase' with hphase' | hphase' <;> rw [hphase'] at hphase <;> cases hphase

theorem Sound.wait_wakes {b : Bool} (hphase : proc.phase = .waiting c b) (hexited : Exited σ c) :
    b = false ∧
      ∃ σ', (ProcStep.down p).step σ = some σ' ∧
        σ'.procs p = some { proc with phase := .reaping c } := by
  obtain ⟨pn, child, hr, hc, hagree⟩ := h.awaited hp (.inl ⟨b, hphase⟩)
  obtain ⟨child', hc', hend⟩ := hexited
  rw [hc] at hc'
  cases hc'
  have hb : b = false := by
    by_contra hb
    rw [Bool.not_eq_false] at hb
    exact hagree.blocked (hb ▸ hphase) hend
  subst hb
  have hreap : proc.phase ≠ .reaping c := by rw [hphase]; exact nofun
  have hvalue := hagree.value
  rw [if_pos ⟨hend, hreap⟩] at hvalue
  have hexec : (ProcStep.down p).exec σ =
      .next ((σ.set p { proc with phase := .reaping c }).setRecord c
        (some { pn with value := pn.value - 1 })) := by
    rw [ProcStep.exec, as_eq hp, hphase]
    dsimp only
    rw [use_eq hr, if_neg (by rw [hvalue]; exact Nat.one_ne_zero)]
  exact ⟨rfl, _, ProcStep.step_of_exec hexec, update_self ..⟩

theorem Sound.wait_returns (hphase : proc.phase = .reaping c) : ∃ child σ',
      σ.procs c = some child ∧ child.phase = .exited ∧ (ProcStep.reap p).step σ = some σ' ∧
        σ'.procs p = some { proc with
          phase := .running
          childList := proc.childList.erase c
          returned := some (c, child.recorded)
          waited := c :: proc.waited } := by
  obtain ⟨pn, child, hr, hc, hagree⟩ := h.awaited hp (.inr hphase)
  have hexec : (ProcStep.reap p).exec σ =
      .next ((σ.set p { proc with
        phase := .running
        childList := proc.childList.erase c
        returned := some (c, child.recorded)
        waited := c :: proc.waited }).setRecord c none) := by
    rw [ProcStep.exec, as_eq hp, hphase]
    dsimp only
    rw [h.walk_eq hp, use_eq hr, hagree.status]
  exact ⟨child, _, hc, hagree.reaping hphase, ProcStep.step_of_exec hexec, update_self ..⟩

theorem Sound.waitExact (halive : proc.Alive) :
    WaitExact σ p proc where
  first hphase c hborn hwaited := h.wait_first hp hphase
    (((h.consistent p proc hp).listed halive.1 halive.2 c).mpr ⟨hborn, hwaited⟩)
  other hphase pid hpid := by
    refine h.wait_other hp hphase fun c hc heq => ?_
    obtain ⟨hborn, hwaited⟩ := ((h.consistent p proc hp).listed halive.1 halive.2 c).mp hc
    exact hwaited (hpid c hborn heq)
  blocks c b hphase hexited e σ' hactor hstep := h.wait_blocks hp hphase hexited hactor hstep
  wakes c b hphase hexited := h.wait_wakes hp hphase hexited
  returns c hphase := h.wait_returns hp hphase

end

/-- The step is one of `thread_create` or `process_wait`. -/
def ProcStep.asParent : ProcStep → Bool
  | create _ | wait _ _ | down _ | reap _ => true
  | store _ _ | exit _ | freeChild _ | up _ => false

/-- The step is one of the process `p` in `thread_create` or `process_wait`, or any step of
a process that it has created. -/
def ProcStep.OfFamily (p : ℕ) (proc : Proc) (e : ProcStep) : Prop :=
  (e.actor = p ∧ e.asParent = true) ∨ e.actor ∈ proc.born

theorem keeps_of_born (h : Sound σ) (hreaped : Reaped σ) (hp : σ.procs p = some proc)
    (halive : proc.Alive) (hc : c ∈ proc.born) : Keeps σ c := by
  intro child hchild _ hphase
  have hlisted : c ∈ proc.childList := by
    refine ((h.consistent p proc hp).listed halive.1 halive.2 c).mpr ⟨hc, fun hwaited => ?_⟩
    obtain ⟨child', hchild', hexited⟩ := hreaped p proc hp c hwaited
    rw [hchild] at hchild'
    cases hchild'
    exact hphase hexited
  obtain ⟨-, pn, child', hrecord, -⟩ := h.entry p proc c hp hlisted
  rw [hrecord]
  exact nofun

theorem not_misuses_of_family (h : Sound σ) (hreaped : Reaped σ) (hp : σ.procs p = some proc)
    (halive : proc.Alive) (he : e.OfFamily p proc) : ¬ e.Misuses σ := by
  refine not_misuses h e fun q hq => ?_
  have hactor : e.asParent = false ∧ e.actor = q := by
    cases e <;> cases hq <;> exact ⟨rfl, rfl⟩
  rcases he with ⟨-, hparent⟩ | hborn
  · rw [hactor.1] at hparent
    cases hparent
  · exact keeps_of_born h hreaped hp halive (hactor.2 ▸ hborn)

/-- In any state that the processes get to, `process_wait` of a process that is alive
returns the status of each child once, and neither its calls nor its children use a record
that was freed. -/
theorem run_waitExact {steps : List ProcStep}
    (hr : Run.run ProcStep.step boot steps = some σ) (hp : σ.procs p = some proc)
    (halive : proc.Alive) :
    WaitExact σ p proc ∧ ∀ e : ProcStep, e.OfFamily p proc → ¬ e.Misuses σ := by
  obtain ⟨hs, hreaped⟩ := run_reaped hr
  exact ⟨hs.waitExact hp halive, fun e he => not_misuses_of_family hs hreaped hp halive he⟩

/-- The initial thread creates two processes and waits for the first one, which exits. -/
def waitSteps : List ProcStep :=
  [.create 1, .create 1, .wait 1 2, .down 1, .store 2 7, .exit 2, .up 2, .down 1]

theorem run_waitExact_waitSteps :
    ∃ σ proc, Run.run ProcStep.step boot waitSteps = some σ ∧
      σ.procs 1 = some proc ∧ proc.phase = .reaping 2 ∧ WaitExact σ 1 proc ∧
      ¬ (ProcStep.store 3 0).Misuses σ := by
  have hr : Run.run ProcStep.step boot waitSteps = some _ := rfl
  have hexact := run_waitExact (p := 1) hr rfl ⟨nofun, nofun⟩
  exact ⟨_, _, hr, rfl, rfl, hexact.1, hexact.2 _ (.inr (by decide))⟩

end CS162.Userprog
