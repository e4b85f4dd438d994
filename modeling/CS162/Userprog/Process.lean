import CS162.Lib.Run

/-!
# Processes and the records of their children

`thread_create` allocates a `struct pnode` for the child; the parent waits on its semaphore
and frees it, and the child stores its status in it and ups the semaphore at the end.  A step
is what one process does without another one coming in between.  A pointer to a record is
named by the child that the record was made for.
-/

namespace CS162

open Function

namespace Userprog

/-- `struct pnode`: the status and the semaphore. -/
structure Pnode where
  exitStatus : ℤ
  value : ℕ
  waiters : List ℕ
  deriving DecidableEq

/-- Where a process is: in its program; in `process_wait` before `sema_down` has passed, or
behind it; between the store of its status and `thread_exit`; in `process_exit`; at its
end. -/
inductive Phase where
  | running
  | waiting (pid : ℕ) (blocked : Bool)
  | reaping (pid : ℕ)
  | leaving
  | freeing
  | exited
  deriving DecidableEq

/-- A process: its own record, which the initial thread does not have, the records in
`child_list`, and the last value that `process_wait` has returned.  The last three fields
are not in memory: all children it created, those it has waited for, and the status it
has stored last. -/
structure Proc where
  pn : Option ℕ
  childList : List ℕ
  phase : Phase
  returned : Option (ℤ × ℤ)
  born : List ℕ
  waited : List ℕ
  recorded : ℤ
  deriving DecidableEq

def Proc.findChildPnode (proc : Proc) (pid : ℤ) : Option ℕ :=
  proc.childList.find? fun r => (r : ℤ) = pid

/-- All processes by their `tid`, and the records that have not been freed. -/
structure Processes where
  procs : ℕ → Option Proc
  records : ℕ → Option Pnode
  nextTid : ℕ

namespace Processes

def set (σ : Processes) (p : ℕ) (proc : Proc) : Processes :=
  { σ with procs := update σ.procs p (some proc) }

def setRecord (σ : Processes) (r : ℕ) (pn : Option Pnode) : Processes :=
  { σ with records := update σ.records r pn }

theorem setRecord_records_self (σ : Processes) (r : ℕ) (pn : Option Pnode) :
    (σ.setRecord r pn).records r = pn :=
  update_self ..

theorem setRecord_records_of_ne (σ : Processes) {r c : ℕ} (h : c ≠ r) (pn : Option Pnode) :
    (σ.setRecord r pn).records c = σ.records c :=
  update_of_ne h ..

/-- A new thread and its record, as `thread_create` makes them. -/
def create (σ : Processes) (p : ℕ) (proc : Proc) : Processes :=
  let tid := σ.nextTid
  { procs := update
      (update σ.procs p (some { proc with
        childList := proc.childList ++ [tid]
        born := proc.born ++ [tid] }))
      tid (some ⟨some tid, [], .running, none, [], [], -1⟩)
    records := update σ.records tid (some ⟨-1, 0, []⟩)
    nextTid := tid + 1 }

/-- `sema_up` wakes a waiter.  Only the parent waits for the semaphore of a record, so
there is none to choose from. -/
def wake (σ : Processes) : List ℕ → Processes
  | [] => σ
  | w :: _ =>
    match σ.procs w with
    | some proc =>
      match proc.phase with
      | .waiting pid _ => σ.set w { proc with phase := .waiting pid false }
      | _ => σ
    | none => σ

end Processes

/-- What comes of a step: the next state, the use of a record that has been freed, or
nothing because the process is not there. -/
inductive Outcome where
  | next (σ : Processes)
  | misuse
  | disabled

/-- The steps of a process `p`. -/
inductive ProcStep where
  | create (p : ℕ)
  | wait (p : ℕ) (pid : ℤ)
  | down (p : ℕ)
  | reap (p : ℕ)
  | store (p : ℕ) (status : ℤ)
  | exit (p : ℕ)
  | freeChild (p : ℕ)
  | up (p : ℕ)
  deriving DecidableEq

def ProcStep.actor : ProcStep → ℕ
  | create p | wait p _ | down p | reap p | store p _ | exit p | freeChild p | up p => p

namespace Processes

def as (σ : Processes) (p : ℕ) (k : Proc → Outcome) : Outcome :=
  match σ.procs p with
  | some proc => k proc
  | none => .disabled

def use (σ : Processes) (r : ℕ) (k : Pnode → Outcome) : Outcome :=
  match σ.records r with
  | some pn => k pn
  | none => .misuse

/-- An operation on `child_list`, which goes through records in it. -/
def walk (σ : Processes) (proc : Proc) (k : Outcome) : Outcome :=
  if ∀ r ∈ proc.childList, σ.records r ≠ none then k else .misuse

end Processes

/-- One step.

`wait` is `find_child_pnode`.  `down` is `sema_down`, where a thread that has been woken
looks at the value again.  `reap` is the rest of `process_wait`.  `store` is `sys_exit` or
`error` up to `thread_exit`.  `exit` enters `process_exit`, from the program if the process
is killed; `freeChild` is a round of `free_child_list`, and `up` is the `sema_up` at the
end, which wakes the waiter. -/
def ProcStep.exec (σ : Processes) : ProcStep → Outcome
  | create p => σ.as p fun proc =>
    if proc.phase = .running then σ.walk proc (.next (σ.create p proc)) else .disabled
  | wait p pid => σ.as p fun proc =>
    if proc.phase = .running then
      σ.walk proc (match proc.findChildPnode pid with
        | some r => .next (σ.set p { proc with phase := .waiting r false })
        | none => .next (σ.set p { proc with returned := some (pid, -1) }))
    else
      .disabled
  | down p => σ.as p fun proc =>
    match proc.phase with
    | .waiting pid false => σ.use pid fun pn =>
      if pn.value = 0 then
        .next ((σ.set p { proc with phase := .waiting pid true }).setRecord pid
          (some { pn with waiters := pn.waiters ++ [p] }))
      else
        .next ((σ.set p { proc with phase := .reaping pid }).setRecord pid
          (some { pn with value := pn.value - 1 }))
    | _ => .disabled
  | reap p => σ.as p fun proc =>
    match proc.phase with
    | .reaping pid => σ.walk proc (σ.use pid fun pn =>
      .next ((σ.set p { proc with
        phase := .running
        childList := proc.childList.erase pid
        returned := some (pid, pn.exitStatus)
        waited := pid :: proc.waited }).setRecord pid none))
    | _ => .disabled
  | store p status => σ.as p fun proc =>
    match proc.pn with
    | some r =>
      if proc.phase = .running then σ.use r fun pn =>
        .next ((σ.set p { proc with phase := .leaving, recorded := status }).setRecord r
          (some { pn with exitStatus := status }))
      else
        .disabled
    | none => .disabled
  | exit p => σ.as p fun proc =>
    if proc.phase = .running ∨ proc.phase = .leaving then
      .next (σ.set p { proc with phase := .freeing })
    else
      .disabled
  | freeChild p => σ.as p fun proc =>
    match proc.childList with
    | c :: cs =>
      if proc.phase = .freeing then σ.walk proc (σ.use c fun _ =>
        .next ((σ.set p { proc with childList := cs }).setRecord c none))
      else
        .disabled
    | [] => .disabled
  | up p => σ.as p fun proc =>
    match proc.pn with
    | some r =>
      if proc.phase = .freeing ∧ proc.childList = [] then σ.use r fun pn =>
        .next (((σ.set p { proc with phase := .exited }).wake pn.waiters).setRecord r
          (some { pn with value := pn.value + 1, waiters := pn.waiters.tail }))
      else
        .disabled
    | none => .disabled

def ProcStep.step (σ : Processes) (e : ProcStep) : Option Processes :=
  match e.exec σ with
  | .next σ' => some σ'
  | _ => none

/-- The step uses a record after it was freed, or frees it again. -/
def ProcStep.Misuses (σ : Processes) (e : ProcStep) : Prop :=
  e.exec σ = .misuse

/-- The initial thread, before it has created another one. -/
def Processes.boot : Processes where
  procs := update (fun _ => none) 1 (some ⟨none, [], .running, none, [], [], -1⟩)
  records := fun _ => none
  nextTid := 2

/-- The steps that are possible, with all they do. -/
inductive Moves (σ : Processes) : ProcStep → Processes → Prop
  | create {p : ℕ} {proc : Proc} (hp : σ.procs p = some proc) (hphase : proc.phase = .running) :
      Moves σ (.create p) (σ.create p proc)
  | found {p r : ℕ} {pid : ℤ} {proc : Proc} (hp : σ.procs p = some proc)
      (hphase : proc.phase = .running) (hpid : proc.findChildPnode pid = some r) :
      Moves σ (.wait p pid) (σ.set p { proc with phase := .waiting r false })
  | notFound {p : ℕ} {pid : ℤ} {proc : Proc} (hp : σ.procs p = some proc)
      (hphase : proc.phase = .running) (hpid : proc.findChildPnode pid = none) :
      Moves σ (.wait p pid) (σ.set p { proc with returned := some (pid, -1) })
  | block {p pid : ℕ} {proc : Proc} {pn : Pnode} (hp : σ.procs p = some proc)
      (hphase : proc.phase = .waiting pid false) (hr : σ.records pid = some pn)
      (hvalue : pn.value = 0) :
      Moves σ (.down p) ((σ.set p { proc with phase := .waiting pid true }).setRecord pid
        (some { pn with waiters := pn.waiters ++ [p] }))
  | pass {p pid : ℕ} {proc : Proc} {pn : Pnode} (hp : σ.procs p = some proc)
      (hphase : proc.phase = .waiting pid false) (hr : σ.records pid = some pn)
      (hvalue : pn.value ≠ 0) :
      Moves σ (.down p) ((σ.set p { proc with phase := .reaping pid }).setRecord pid
        (some { pn with value := pn.value - 1 }))
  | reap {p pid : ℕ} {proc : Proc} {pn : Pnode} (hp : σ.procs p = some proc)
      (hphase : proc.phase = .reaping pid) (hr : σ.records pid = some pn) :
      Moves σ (.reap p) ((σ.set p { proc with
        phase := .running
        childList := proc.childList.erase pid
        returned := some (pid, pn.exitStatus)
        waited := pid :: proc.waited }).setRecord pid none)
  | store {p r : ℕ} {status : ℤ} {proc : Proc} {pn : Pnode} (hp : σ.procs p = some proc)
      (hphase : proc.phase = .running) (hpn : proc.pn = some r) (hr : σ.records r = some pn) :
      Moves σ (.store p status)
        ((σ.set p { proc with phase := .leaving, recorded := status }).setRecord r
          (some { pn with exitStatus := status }))
  | exit {p : ℕ} {proc : Proc} (hp : σ.procs p = some proc)
      (hphase : proc.phase = .running ∨ proc.phase = .leaving) :
      Moves σ (.exit p) (σ.set p { proc with phase := .freeing })
  | freeChild {p c : ℕ} {cs : List ℕ} {proc : Proc} (hp : σ.procs p = some proc)
      (hphase : proc.phase = .freeing) (hlist : proc.childList = c :: cs) :
      Moves σ (.freeChild p) ((σ.set p { proc with childList := cs }).setRecord c none)
  | up {p r : ℕ} {proc : Proc} {pn : Pnode} (hp : σ.procs p = some proc)
      (hphase : proc.phase = .freeing) (hlist : proc.childList = []) (hpn : proc.pn = some r)
      (hr : σ.records r = some pn) :
      Moves σ (.up p) (((σ.set p { proc with phase := .exited }).wake pn.waiters).setRecord r
        (some { pn with value := pn.value + 1, waiters := pn.waiters.tail }))

variable {σ σ' : Processes} {e : ProcStep} {p q c : ℕ} {proc proc' : Proc}

theorem Proc.findChildPnode_eq_some {pid : ℤ} (h : proc.findChildPnode pid = some c) :
    c ∈ proc.childList ∧ (c : ℤ) = pid := by
  have hpid := List.find?_some h
  exact ⟨List.mem_of_find?_eq_some h, of_decide_eq_true hpid⟩

theorem Proc.findChildPnode_of_mem (h : c ∈ proc.childList) : proc.findChildPnode c = some c := by
  cases hfind : proc.findChildPnode c with
  | none => exact absurd (List.find?_eq_none.mp hfind c h) (by simp)
  | some d =>
    rw [Int.ofNat_inj.mp (Proc.findChildPnode_eq_some hfind).2]

namespace Processes

theorem as_eq_next {k : Proc → Outcome} (h : σ.as p k = .next σ') :
    ∃ proc, σ.procs p = some proc ∧ k proc = .next σ' := by
  unfold as at h
  cases hp : σ.procs p with
  | none => rw [hp] at h; cases h
  | some proc => rw [hp] at h; exact ⟨proc, rfl, h⟩

theorem wake_cases (σ : Processes) (ws : List ℕ) :
    σ.wake ws = σ ∨ ∃ w proc pid b, σ.procs w = some proc ∧ proc.phase = .waiting pid b ∧
      σ.wake ws = σ.set w { proc with phase := .waiting pid false } := by
  cases ws with
  | nil => exact .inl rfl
  | cons w ws =>
    cases hw : σ.procs w with
    | none => exact .inl (by rw [wake, hw])
    | some proc =>
      cases hphase : proc.phase with
      | waiting pid b =>
        refine .inr ⟨w, proc, pid, b, hw, hphase, ?_⟩
        rw [wake, hw]
        dsimp only
        rw [hphase]
      | _ =>
        left
        rw [wake, hw]
        dsimp only
        rw [hphase]

theorem as_eq (hp : σ.procs p = some proc) (k : Proc → Outcome) : σ.as p k = k proc := by
  rw [as, hp]

theorem use_eq {r : ℕ} {pn : Pnode} (hr : σ.records r = some pn) (k : Pnode → Outcome) :
    σ.use r k = k pn := by
  rw [use, hr]

theorem use_eq_next {r : ℕ} {k : Pnode → Outcome} (h : σ.use r k = .next σ') :
    ∃ pn, σ.records r = some pn ∧ k pn = .next σ' := by
  unfold use at h
  cases hr : σ.records r with
  | none => rw [hr] at h; cases h
  | some pn => rw [hr] at h; exact ⟨pn, rfl, h⟩

theorem walk_eq_next {k : Outcome} (h : σ.walk proc k = .next σ') : k = .next σ' := by
  unfold walk at h
  split_ifs at h
  exact h

end Processes

theorem moves_of_exec (h : e.exec σ = .next σ') : Moves σ e σ' := by
  cases e with
  | create p =>
    obtain ⟨proc, hp, h⟩ := Processes.as_eq_next h
    split_ifs at h with hphase
    cases Processes.walk_eq_next h
    exact .create hp hphase
  | wait p pid =>
    obtain ⟨proc, hp, h⟩ := Processes.as_eq_next h
    split_ifs at h with hphase
    have h := Processes.walk_eq_next h
    split at h
    · next r hpid =>
      cases h
      exact .found hp hphase hpid
    · next hpid =>
      cases h
      exact .notFound hp hphase hpid
  | down p =>
    obtain ⟨proc, hp, h⟩ := Processes.as_eq_next h
    split at h
    · next pid hphase =>
      obtain ⟨pn, hr, h⟩ := Processes.use_eq_next h
      split_ifs at h with hvalue
      · cases h
        exact .block hp hphase hr hvalue
      · cases h
        exact .pass hp hphase hr hvalue
    · cases h
  | reap p =>
    obtain ⟨proc, hp, h⟩ := Processes.as_eq_next h
    split at h
    · next pid hphase =>
      obtain ⟨pn, hr, h⟩ := Processes.use_eq_next (Processes.walk_eq_next h)
      cases h
      exact .reap hp hphase hr
    · cases h
  | store p status =>
    obtain ⟨proc, hp, h⟩ := Processes.as_eq_next h
    split at h
    · next r hpn =>
      split_ifs at h with hphase
      obtain ⟨pn, hr, h⟩ := Processes.use_eq_next h
      cases h
      exact .store hp hphase hpn hr
    · cases h
  | exit p =>
    obtain ⟨proc, hp, h⟩ := Processes.as_eq_next h
    split_ifs at h with hphase
    cases h
    exact .exit hp hphase
  | freeChild p =>
    obtain ⟨proc, hp, h⟩ := Processes.as_eq_next h
    split at h
    · next c cs hlist =>
      split_ifs at h with hphase
      obtain ⟨pn, hr, h⟩ := Processes.use_eq_next (Processes.walk_eq_next h)
      cases h
      exact .freeChild hp hphase hlist
    · cases h
  | up p =>
    obtain ⟨proc, hp, h⟩ := Processes.as_eq_next h
    split at h
    · next r hpn =>
      split_ifs at h with hphase
      obtain ⟨pn, hr, h⟩ := Processes.use_eq_next h
      cases h
      exact .up hp hphase.1 hphase.2 hpn hr
    · cases h

theorem ProcStep.step_of_exec (h : e.exec σ = .next σ') : e.step σ = some σ' := by
  rw [ProcStep.step, h]

theorem moves_of_step (h : e.step σ = some σ') : Moves σ e σ' := by
  unfold ProcStep.step at h
  cases hexec : e.exec σ with
  | next τ =>
    rw [hexec] at h
    cases h
    exact moves_of_exec hexec
  | misuse => rw [hexec] at h; cases h
  | disabled => rw [hexec] at h; cases h

end Userprog

end CS162
