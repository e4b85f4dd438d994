import CS162.Memory.Sbrk

/-!
# Page faults

`page_fault` and `grow_page` of homework 6, which grow the stack.  A call of `syscall_exit` ends
the process, and an assertion that fails has no result.
-/

namespace CS162.Memory

open Option
open Threads Userprog Filesys

structure Fault where
  faultAddr : ℕ
  errorCode : ℕ
  /-- `f->esp`. -/
  esp : ℕ
  /-- `t->user_stack`. -/
  userStack : ℕ
  inSyscall : Bool

/-- Bit `PF_U` of the error code: the access was by the user. -/
def Fault.user (f : Fault) : Prop :=
  f.errorCode &&& 4 ≠ 0

instance (f : Fault) : Decidable f.user :=
  inferInstanceAs (Decidable (_ ≠ _))

/-- The kernel faulted on a user address while it handled a system call. -/
def Fault.inKernel (f : Fault) : Prop :=
  ¬ f.user ∧ f.inSyscall = true ∧ isUserVaddr f.faultAddr

instance (f : Fault) : Decidable f.inKernel :=
  inferInstanceAs (Decidable (_ ∧ _ ∧ _))

/-- How `page_fault` ends: the process exits, or goes on. -/
inductive Outcome where
  | exited (s : Palloc)
  | resumed (s : Palloc)

/-- The end of `grow_page`, which maps the page that has been found. -/
def mapFound (k : Globals) (pd uaddr : ℕ) (s : Palloc) : Option Outcome :=
  (s.getPage { user := true, zero := true }).bind fun
    | (none, s) => some (.exited s)
    | (some kaddr, s) =>
      (pagedirSetPage k pd uaddr kaddr true s).bind fun
        | (true, s) => some (.resumed s)
        | (false, s) => (s.freePage kaddr).map .exited

/-- `grow_page`; its loop ends before `PHYS_BASE` or with an assertion there. -/
def growPage (k : Globals) (pd faultAddr : ℕ) (s : Palloc) : Option Outcome :=
  (skipMapped pd s (2 ^ 20) (pgRoundDown faultAddr)).bind fun uaddr => mapFound k pd uaddr s

def growAbove (k : Globals) (pd esp faultAddr : ℕ) (s : Palloc) : Option Outcome :=
  if (faultAddr + 32) % 2 ^ 32 < esp then some (.exited s) else growPage k pd faultAddr s

def pageFault (k : Globals) (pd : ℕ) (f : Fault) (s : Palloc) : Option Outcome :=
  if f.inKernel then growAbove k pd f.userStack f.faultAddr s
  else if f.user then growAbove k pd f.esp f.faultAddr s
  else some (.exited s)

/-- There is no frame for the page, or no page for its page table. -/
def NoMemory (pd n : ℕ) (s : Palloc) : Prop :=
  NoRun s 1 ∨ tableOf s pd (n / 1024) = none ∧ freePages s = 0

/-- The page `n`, which was not present, is mapped to a frame of zeros that was free, and no
other page is. -/
structure Grown (pd n : ℕ) (s s' : Palloc) : Prop where
  user : isUserVaddr (pgSize * n)
  absent : frameOf s pd n = none
  fresh : ∃ idx < s.userPool.usedMap.bitCnt, s.userPool.usedMap.bit idx = false ∧
    s'.userPool.usedMap.bit idx = true ∧
    frameOf s' pd n = some (s.userPool.base + pgSize * idx) ∧
    ∀ x, s.userPool.InRun idx 1 x → s'.mem x = 0
  others : ∀ i ≠ n, frameOf s' pd i = frameOf s pd i
  kernel : ∀ i, userTables ≤ i → i < 1024 →
    s'.mem.word (pd + 4 * i) = s.mem.word (pd + 4 * i)

section Grow

variable {k : Globals} {s : Palloc} {pd n m : ℕ} {T M : ℕ → Option ℕ}

theorem not_tabular_kernel {mem : Mem} {x : ℕ} (h : Maps mem pd T M)
    (hle : pd + 4 * userTables ≤ x) (hlt : x < pd + pgSize) : ¬ Tabular pd T x := by
  rintro (⟨-, hx⟩ | ⟨i, t, ht, hx⟩)
  · omega
  · obtain ⟨-, hpage, hne⟩ := h.table i t ht
    have := hpage.apart h.page hne
    unfold InPage at hx
    omega

namespace Space

theorem dir_has {x : ℕ} (h : Space k s pd T M) (hle : pd ≤ x) (hlt : x < pd + pgSize) :
    s.kernelPool.Has x := by
  obtain ⟨idx, hidx, rfl, -⟩ := h.held pd (.inl rfl)
  unfold Pool.Has Pool.limit pgSize at *
  omega

theorem mapFound_eq (h : Space k s pd T M) (huser : isUserVaddr (pgSize * n)) (hM : M n = none) :
    NoMemory pd n s ∧ (∃ s', mapFound k pd (pgSize * n) s = some (.exited s')) ∨ ¬ NoMemory pd n s ∧
      ∃ s', mapFound k pd (pgSize * n) s = some (.resumed s') ∧ Grown pd n s s' := by
  have htable : n / 1024 < userTables := by
    unfold isUserVaddr loaderPhysBase pgSize at huser
    unfold userTables
    omega
  unfold NoMemory
  rw [h.tableOf_eq htable]
  by_cases hrun : NoRun s 1
  · have hget := @Palloc.getMultiple_none s { user := true, zero := true } 1 h.layout one_ne_zero
      hrun.scan_eq
    refine .inl ⟨.inl hrun, s, ?_⟩
    rw [mapFound, Palloc.getPage, hget]
    rfl
  · obtain ⟨idx, hscan⟩ := exists_scan hrun
    obtain ⟨hin, hclear⟩ := bitmapScan_some hscan
    obtain ⟨s1, b, hget, hs1, hpool, hkernel, hbcnt, hbit, hzero, hmem⟩ :=
      h.getUser one_ne_zero true hscan
    have hin1 : idx < s1.userPool.usedMap.bitCnt := by
      rw [hpool]
      exact hbcnt ▸ hin
    have hmarked : s1.userPool.usedMap.bit idx = true := by
      rw [hpool, hbit]
      exact if_pos (by omega)
    have hbase : s1.userPool.base = s.userPool.base := by rw [hpool]
    have hfree : freePages s1 = freePages s := by
      unfold freePages
      rw [hkernel]
    have hfound : mapFound k pd (pgSize * n) s =
        (pagedirSetPage k pd (pgSize * n) (s.userPool.base + pgSize * idx) true s1).bind fun
          | (true, s) => some (.resumed s)
          | (false, s') =>
            (s'.freePage (s.userPool.base + pgSize * idx)).map .exited := by
      rw [mapFound, Palloc.getPage, hget]
      rfl
    rw [hfound, ← hbase, ← hfree]
    rcases hs1.setPage huser hM hin1 with ⟨ht, hnone, hset⟩ |
      ⟨s2, T2, hset, hs2, hkeep, -, hcount, hrest⟩
    · obtain ⟨s2, b2, hfreed, -⟩ := @Space.freeUser k s1 pd idx 1 T M hs1 one_ne_zero hin1
        fun i hi => by rwa [Nat.lt_one_iff.mp hi]
      refine .inl ⟨.inr ⟨ht, hnone⟩, s2, ?_⟩
      rw [hset, bind_some]
      dsimp only
      rw [Palloc.freePage, hfreed, map_some]
    · refine .inr ⟨?_, s2, ?_, huser, ?_, ⟨idx, hin, ?_, ?_, ?_, fun x hx => ?_⟩,
        fun i hi => ?_, fun i hi hi' => ?_⟩
      · rintro (hnone | ⟨ht, hnone⟩)
        · exact hrun hnone
        · rw [if_pos ht] at hcount
          omega
      · rw [hset]
        rfl
      · rw [h.frameOf_eq, hM]
      · exact hclear idx le_rfl (Nat.lt_succ_self idx)
      · rw [hkeep.userPool, hmarked]
      · rw [hs2.frameOf_eq, Function.update_self, hbase]
      · refine (hkeep.mem x ?_).trans (hzero rfl x hx)
        rw [hpool]
        unfold Pool.InRun at hx
        unfold Pool.Has Pool.limit
        dsimp only
        rw [hbcnt]
        unfold pgSize at *
        omega
      · rw [hs2.frameOf_eq, Function.update_of_ne hi, h.frameOf_eq]
      · refine Mem.word_congr fun x hx hx' => ?_
        have hlt : x < pd + pgSize := by
          unfold pgSize
          omega
        exact (hrest x (not_tabular_kernel hs2.maps (by omega) hlt)).trans
          (hmem x (h.dir_has (by omega) hlt))

end Space

end Grow

def Fault.stack (f : Fault) : ℕ :=
  if f.user then f.esp else f.userStack

/-- The process exits, or the page of the fault address has been mapped. -/
def Handled (pd : ℕ) (f : Fault) (s : Palloc) (r : Option Outcome) : Prop :=
  (∃ s', r = some (.exited s')) ∨
    ∃ s', r = some (.resumed s') ∧ Grown pd (pgNo f.faultAddr) s s'

/-- When a fault is handled: the address is too far below the stack; or it is a user address
and its page is not mapped; or there is no memory for the first page above that is not. -/
def FaultOk (pd : ℕ) (f : Fault) (s : Palloc) : Prop :=
  (f.faultAddr + 32) % 2 ^ 32 < f.stack ∨ isUserVaddr f.faultAddr ∧
    (frameOf s pd (pgNo f.faultAddr) = none ∨
      ∃ m, FirstFree (frameOf s pd) (pgNo f.faultAddr) m ∧ NoMemory pd m s)

section Fault

variable {k : Globals} {s : Palloc} {pd n : ℕ} {T M : ℕ → Option ℕ} {f : Fault}

theorem pageFault_eq (h : f.user ∨ f.inKernel) :
    pageFault k pd f s = growAbove k pd f.stack f.faultAddr s := by
  unfold pageFault Fault.stack
  by_cases hkernel : f.inKernel
  · rw [if_pos hkernel, if_neg hkernel.1]
  · have huser := h.resolve_right hkernel
    rw [if_neg hkernel, if_pos huser, if_pos huser]

theorem not_handled_none : ¬ Handled pd f s none := by
  rintro (⟨s', hs'⟩ | ⟨s', hs', -⟩) <;> cases hs'

theorem growPage_kernel (h : ¬ isUserVaddr n) : growPage k pd n s = none := by
  have hround : ¬ isUserVaddr (pgRoundDown n) := by
    unfold isUserVaddr loaderPhysBase at *
    unfold pgRoundDown pgSize
    omega
  rw [growPage, skipMapped_kernel hround, bind_none]

theorem Space.growPage_handled (h : Space k s pd T M) (huser : isUserVaddr f.faultAddr) :
    Handled pd f s (growPage k pd f.faultAddr s) ↔ frameOf s pd (pgNo f.faultAddr) = none ∨
      ∃ m, FirstFree (frameOf s pd) (pgNo f.faultAddr) m ∧ NoMemory pd m s := by
  have hM : frameOf s pd = M := funext h.frameOf_eq
  have hround : pgRoundDown f.faultAddr = pgSize * pgNo f.faultAddr := Nat.mul_comm _ _
  have hpage : isUserVaddr (pgSize * pgNo f.faultAddr) :=
    hround ▸ (Nat.div_mul_le_self _ _).trans_lt huser
  rw [growPage, hround, hM]
  rcases Maps.skipMapped_eq (s := s) h.maps (2 ^ 20) (isUserVaddr.pgNo_lt huser).le
    (by unfold userTables; omega) with ⟨m, hm, hskip⟩ | ⟨hall, hskip⟩
  · rw [hskip, bind_some]
    rcases h.mapFound_eq hm.user hm.free with ⟨hmem, s', hs'⟩ | ⟨hmem, s', hs', hgrown⟩
    · rw [hs']
      exact iff_of_true (.inl ⟨s', rfl⟩) (.inr ⟨m, hm, hmem⟩)
    · rw [hs']
      by_cases hfirst : M (pgNo f.faultAddr) = none
      · refine iff_of_true (.inr ⟨s', rfl, ?_⟩) (.inl hfirst)
        -- the first page that is not mapped is the page of the address
        rwa [hm.eq_of_free hfirst]
      · refine iff_of_false ?_ ?_
        · rintro (⟨s'', hs''⟩ | ⟨s'', -, habsent⟩)
          · cases hs''
          · exact hfirst (hM ▸ habsent.absent)
        · rintro (hnone | ⟨m', hm', hmem'⟩)
          · exact hfirst hnone
          · exact hmem (hm'.unique hm ▸ hmem')
  · rw [hskip, bind_none]
    refine iff_of_false not_handled_none ?_
    rintro (hnone | ⟨m, hm, -⟩)
    · exact hall _ le_rfl hpage hnone
    · exact hall m hm.le hm.user hm.free

/-- Which faults by the user, or on a user address in a system call, are handled. -/
theorem pageFault_handled_iff (h : Space k s pd T M) (hf : f.user ∨ f.inKernel) :
    Handled pd f s (pageFault k pd f s) ↔ FaultOk pd f s := by
  rw [pageFault_eq hf, growAbove, FaultOk]
  by_cases hbelow : (f.faultAddr + 32) % 2 ^ 32 < f.stack
  · rw [if_pos hbelow]
    exact iff_of_true (.inl ⟨s, rfl⟩) (.inl hbelow)
  · rw [if_neg hbelow, or_iff_right hbelow]
    by_cases huser : isUserVaddr f.faultAddr
    · rw [h.growPage_handled huser, and_iff_right huser]
    · rw [growPage_kernel huser]
      exact iff_of_false not_handled_none fun hok => huser hok.1

/-- A push onto a stack whose page is not mapped. -/
theorem pageFault_push : Handled 0xc0101000 ⟨0xbffffffc, 6, 0xc0000000, 0, false⟩ sampleAlloc
    (pageFault sampleGlobals 0xc0101000 ⟨0xbffffffc, 6, 0xc0000000, 0, false⟩ sampleAlloc) :=
  (pageFault_handled_iff sampleAlloc_space (.inl (by decide))).mpr
    (.inr ⟨by decide, .inl (sampleAlloc_space.frameOf_eq _)⟩)

/-- The user reads at `PHYS_BASE`, and an assertion of `pagedir_get_page` fails. -/
theorem pageFault_panics :
    Space sampleGlobals sampleAlloc 0xc0101000 (fun _ => none) (fun _ => none) ∧
    pageFault sampleGlobals 0xc0101000 ⟨0xc0000000, 5, 0xbfffffec, 0, false⟩ sampleAlloc = none ∧
    ¬ Handled 0xc0101000 ⟨0xc0000000, 5, 0xbfffffec, 0, false⟩ sampleAlloc
      (pageFault sampleGlobals 0xc0101000 ⟨0xc0000000, 5, 0xbfffffec, 0, false⟩ sampleAlloc) := by
  have hnone : pageFault sampleGlobals 0xc0101000 ⟨0xc0000000, 5, 0xbfffffec, 0, false⟩
      sampleAlloc = none := by
    rw [pageFault_eq (.inl (by decide)), growAbove, if_neg (by decide)]
    exact growPage_kernel (by decide)
  refine ⟨sampleAlloc_space, hnone, ?_⟩
  rw [hnone]
  exact not_handled_none

end Fault

end CS162.Memory
