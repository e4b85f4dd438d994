import CS162.Memory.AddressSpace

/-!
# The break of a process

`sbrk` of homework 6, `syscall_sbrk` and `fit_brk_pg` of `userprog/syscall.c`, on the page
allocator and the page directory of the process in memory.  An assertion that fails has no
result.  Sums and differences of pointers wrap.
-/

namespace CS162.Memory

open Option Finset Function
open Threads Userprog Filesys

/-- The fields of `struct thread` that are for the heap. -/
structure Process where
  pagedir : ℕ
  heapStart : ℕ
  brk : ℕ
  deriving DecidableEq, Repr

/-- `(a - b) / PGSIZE` as a `size_t`: the difference of two pointers is signed. -/
def pgCnt (a b : ℕ) : ℕ :=
  ((((a : ℤ) - b).bmod (2 ^ 32)).tdiv pgSize % 2 ^ 32).toNat

def clearPages (pd : ℕ) (page : ℕ → ℕ) (cnt : ℕ) (s : Palloc) : Option Palloc :=
  (List.range cnt).foldlM (fun s i => pagedirClearPage pd (page i) s) s

/-- What `fit_brk_pg` does when a page table cannot be had for the page `i`. -/
def undoGrow (pd srcPg kaddr pgCnt i : ℕ) (s : Palloc) : Option (Bool × Palloc) :=
  (clearPages pd (fun j => (srcPg + j * pgSize) % 2 ^ 32) i s).bind fun s =>
    (s.freeMultiple kaddr pgCnt).map fun s => (false, s)

/-- The loop of `fit_brk_pg` that maps the new pages, from the page `i` on. -/
def growLoop (k : Globals) (pd srcPg kaddr pgCnt : ℕ) :
    ℕ → ℕ → Palloc → Option (Bool × Palloc)
  | 0, _, s => some (true, s)
  | n + 1, i, s =>
    (pagedirSetPage k pd ((srcPg + i * pgSize) % 2 ^ 32) ((kaddr + i * pgSize) % 2 ^ 32)
      true s).bind fun r =>
        if r.1 then growLoop k pd srcPg kaddr pgCnt n (i + 1) r.2
        else undoGrow pd srcPg kaddr pgCnt i r.2

def growBrk (k : Globals) (pd srcPg trgPg : ℕ) (s : Palloc) : Option (Bool × Palloc) :=
  (s.getMultiple { user := true, zero := true } (pgCnt trgPg srcPg)).bind fun
    | (none, s) => some (false, s)
    | (some kaddr, s) =>
      growLoop k pd srcPg kaddr (pgCnt trgPg srcPg) (pgCnt trgPg srcPg) 0 s

def shrinkBrk (pd srcPg trgPg : ℕ) (s : Palloc) : Option (Bool × Palloc) :=
  (pagedirGetPage pd trgPg s).bind fun kaddr =>
    (clearPages pd (fun i => (srcPg + (2 ^ 32 - (i + 1) * pgSize % 2 ^ 32)) % 2 ^ 32)
      (pgCnt srcPg trgPg) s).bind fun s =>
        if kaddr = 0 then some (false, s)
        else (s.freeMultiple kaddr (pgCnt srcPg trgPg)).map fun s => (true, s)

def fitBrkPg (k : Globals) (pd srcBrk trgBrk : ℕ) (s : Palloc) : Option (Bool × Palloc) :=
  if pgRoundUp srcBrk = pgRoundUp trgBrk then some (true, s)
  else if pgRoundUp srcBrk < pgRoundUp trgBrk then
    growBrk k pd (pgRoundUp srcBrk) (pgRoundUp trgBrk) s
  else shrinkBrk pd (pgRoundUp srcBrk) (pgRoundUp trgBrk) s

def Process.trgBrk (p : Process) (increment : BitVec 32) : ℕ :=
  (p.brk + increment.toNat) % 2 ^ 32

/-- What `sbrk` returns, and the process after it; -1 is `2 ^ 32 - 1`. -/
def sbrkResult (p : Process) (increment : BitVec 32) : Bool × Palloc → ℕ × Process × Palloc
  | (false, s) => (2 ^ 32 - 1, p, s)
  | (true, s) => (p.brk, { p with brk := p.trgBrk increment }, s)

def syscallSbrk (k : Globals) (p : Process) (increment : BitVec 32) (s : Palloc) :
    Option (ℕ × Process × Palloc) :=
  if increment = 0#32 then some (p.brk, p, s)
  else (fitBrkPg k p.pagedir p.brk (p.trgBrk increment) s).map (sbrkResult p increment)

section Numbers

variable {a b va d : ℕ}

theorem pgRoundUp_lt (va : ℕ) : pgRoundUp va + pgSize ≤ 2 ^ 32 := by
  unfold pgRoundUp pgSize
  omega

theorem pgRoundUp_mod (va : ℕ) : pgRoundUp va % pgSize = 0 :=
  Nat.mul_mod_left _ _

theorem pgRoundUp_le (h : va ≤ loaderPhysBase) : pgRoundUp va ≤ loaderPhysBase := by
  rw [pgRoundUp_eq h]
  unfold pgSize loaderPhysBase at *
  omega

theorem pgRoundUp_le_of_mod (h : va ≤ a) (ha : a % pgSize = 0) (hle : a ≤ loaderPhysBase) :
    pgRoundUp va ≤ a := by
  rw [pgRoundUp_eq (h.trans hle)]
  unfold pgSize at *
  omega

theorem pgSize_mul_div (h : a % pgSize = 0) : pgSize * (a / pgSize) = a :=
  Nat.mul_div_cancel' (Nat.dvd_of_mod_eq_zero h)

theorem pgCnt_of_bmod {e : ℤ} (hmod : ((4096 * d : ℤ)).bmod (2 ^ 32) = 4096 * e) :
    pgCnt (pgSize * (b + d)) (pgSize * b) = (e % 2 ^ 32).toNat := by
  have hcast : ((pgSize * (b + d) : ℕ) : ℤ) - (pgSize * b : ℕ) = 4096 * d := by
    unfold pgSize
    push_cast
    ring
  have hdiv : (4096 * e).tdiv 4096 = e := Int.mul_tdiv_cancel_left e (by decide)
  rw [pgCnt, hcast, hmod]
  exact congrArg (fun q : ℤ => (q % 2 ^ 32).toNat) hdiv

theorem pgCnt_eq (hlt : d < 2 ^ 19) : pgCnt (pgSize * (b + d)) (pgSize * b) = d := by
  rw [pgCnt_of_bmod (Int.bmod_eq_of_le (by omega) (by omega))]
  omega

theorem le_pgCnt (hle : 2 ^ 19 ≤ d) (hlt : d < 2 ^ 20) :
    2 ^ 32 - 2 ^ 20 ≤ pgCnt (pgSize * (b + d)) (pgSize * b) := by
  have hmod : ((4096 * d : ℤ)).bmod (2 ^ 32) = 4096 * (d - 2 ^ 20) := by
    rw [Int.bmod_eq_emod]
    split_ifs <;> omega
  rw [pgCnt_of_bmod hmod]
  omega

end Numbers

/-- The map without the pages `num i`. -/
def unmap (M : ℕ → Option ℕ) (num : ℕ → ℕ) (cnt n : ℕ) : Option ℕ :=
  if ∃ i < cnt, num i = n then none else M n

/-- The map with `cnt` pages from `pg` on mapped to the frames from `kaddr` on. -/
def withRun (M : ℕ → Option ℕ) (pg kaddr cnt n : ℕ) : Option ℕ :=
  if pg ≤ n ∧ n < pg + cnt then some (kaddr + pgSize * (n - pg)) else M n

def Vacant (M : ℕ → Option ℕ) (n : ℕ) : Prop :=
  isUserVaddr (pgSize * n) ∧ M n = none

/-- The number of page tables that are missing for `cnt` pages from `pg` on. -/
def missing (T : ℕ → Option ℕ) (pg cnt : ℕ) : ℕ :=
  (((range cnt).image fun j => (pg + j) / 1024).filter fun i => T i = none).card

section Loops

variable {k : Globals} {s : Palloc} {pd idx cnt : ℕ} {T M : ℕ → Option ℕ}
  {page : ℕ → ℕ} {pg kaddr i : ℕ}

theorem unmap_succ (M : ℕ → Option ℕ) (num : ℕ → ℕ) (cnt : ℕ) :
    unmap M num (cnt + 1) = update (unmap M num cnt) (num cnt) none := by
  funext n
  unfold unmap
  by_cases hn : n = num cnt
  · rw [hn, update_self, if_pos ⟨cnt, Nat.lt_succ_self cnt, rfl⟩]
  · rw [update_of_ne hn]
    refine if_congr ⟨fun ⟨i, hi, heq⟩ => ⟨i, ?_, heq⟩, fun ⟨i, hi, heq⟩ => ⟨i, ?_, heq⟩⟩ rfl rfl
    · rcases Nat.lt_succ_iff_lt_or_eq.mp hi with hi | rfl
      · exact hi
      · exact absurd heq.symm hn
    · omega

theorem withRun_zero (M : ℕ → Option ℕ) (pg kaddr : ℕ) : withRun M pg kaddr 0 = M := by
  funext n
  exact if_neg (by omega)

theorem withRun_succ (M : ℕ → Option ℕ) (pg kaddr cnt : ℕ) :
    withRun M pg kaddr (cnt + 1) =
      update (withRun M pg kaddr cnt) (pg + cnt) (some (kaddr + pgSize * cnt)) := by
  funext n
  unfold withRun
  by_cases hn : n = pg + cnt
  · rw [hn, update_self, if_pos (by omega), Nat.add_sub_cancel_left]
  · rw [update_of_ne hn]
    exact if_congr (by omega) rfl rfl

theorem unmap_withRun (h : ∀ j < cnt, M (pg + j) = none) :
    unmap (withRun M pg kaddr cnt) (fun j => pg + j) cnt = M := by
  funext n
  unfold unmap withRun
  by_cases hn : ∃ j < cnt, pg + j = n
  · obtain ⟨j, hj, rfl⟩ := hn
    rw [if_pos ⟨j, hj, rfl⟩, h j hj]
  · rw [if_neg hn, if_neg fun hlt => hn ⟨n - pg, by omega, by omega⟩]

theorem missing_zero (T : ℕ → Option ℕ) (pg : ℕ) : missing T pg 0 = 0 :=
  rfl

theorem missing_succ (T : ℕ → Option ℕ) (pg cnt : ℕ) :
    missing T pg (cnt + 1) = missing T pg cnt +
      if T ((pg + cnt) / 1024) = none ∧ ∀ j < cnt, (pg + j) / 1024 ≠ (pg + cnt) / 1024
      then 1 else 0 := by
  unfold missing
  rw [range_add_one, image_insert, filter_insert]
  by_cases ht : T ((pg + cnt) / 1024) = none
  · rw [if_pos ht]
    by_cases hj : ∀ j < cnt, (pg + j) / 1024 ≠ (pg + cnt) / 1024
    · rw [if_pos ⟨ht, hj⟩, card_insert_of_notMem]
      simpa [ht] using hj
    · rw [if_neg fun h => hj h.2, insert_eq_self.mpr, Nat.add_zero]
      push Not at hj
      simpa [ht] using hj
  · rw [if_neg ht, if_neg fun h => ht h.1, Nat.add_zero]

theorem clearPages_succ (pd : ℕ) (page : ℕ → ℕ) (cnt : ℕ) (s : Palloc) :
    clearPages pd page (cnt + 1) s =
      (clearPages pd page cnt s).bind fun s => pagedirClearPage pd (page cnt) s := by
  rw [clearPages, List.range_succ, List.foldlM_append]
  refine congrArg _ (funext fun s => ?_)
  rw [List.foldlM_cons]
  cases pagedirClearPage pd (page cnt) s with
  | none => rfl
  | some s => rfl

theorem clearPages_none (hi : i < cnt) (huser : ¬ isUserVaddr (page i)) :
    clearPages pd page cnt s = none := by
  induction cnt with
  | zero => cases hi
  | succ cnt ih =>
    rw [clearPages_succ]
    rcases Nat.lt_succ_iff_lt_or_eq.mp hi with hi | rfl
    · rw [ih hi]
      rfl
    · cases clearPages pd page i s with
      | none => rfl
      | some s => exact if_neg fun h => huser h.2

namespace Space

theorem clearPages (h : Space k s pd T M) (page num : ℕ → ℕ) (cnt : ℕ)
    (hpage : ∀ i < cnt, page i = pgSize * num i ∧ isUserVaddr (page i)) :
    ∃ s', clearPages pd page cnt s = some s' ∧ Space k s' pd T (unmap M num cnt) ∧ Keeps s s' ∧
      s'.kernelPool = s.kernelPool := by
  induction cnt with
  | zero =>
    refine ⟨s, rfl, ?_, Keeps.refl s, rfl⟩
    have heq : unmap M num 0 = M := funext fun n => if_neg (by simp)
    rwa [heq]
  | succ cnt ih =>
    obtain ⟨s', hclear, hs', hkeep, hkernel⟩ := ih fun i hi => hpage i (Nat.lt_succ_of_lt hi)
    obtain ⟨hnum, huser⟩ := hpage cnt (Nat.lt_succ_self cnt)
    obtain ⟨s'', hlast, hs'', hkeep', hkernel'⟩ := hs'.clearPage (hnum ▸ huser)
    refine ⟨s'', ?_, ?_, hkeep.trans hkeep', hkernel'.trans hkernel⟩
    · rw [clearPages_succ, hclear, bind_some, hnum]
      exact hlast
    · rwa [unmap_succ]

theorem missing_step {T' : ℕ → Option ℕ}
    (hT' : ∀ x, T' x = none ↔ T x = none ∧ ∀ j < i, (pg + j) / 1024 ≠ x) :
    missing T pg (i + 1) =
      missing T pg i + if T' ((pg + i) / 1024) = none then 1 else 0 := by
  rw [missing_succ]
  exact congrArg _ (if_congr (hT' _).symm rfl rfl)

section

variable (h : Space k s pd T M) (hidx : idx + cnt ≤ s.userPool.usedMap.bitCnt)
  (hpg : pgSize * (pg + cnt) < 2 ^ 32)

include h hidx hpg

theorem growLoop_succ (hi : i < cnt) :
    growLoop k pd (pgSize * pg) (s.userPool.base + pgSize * idx) cnt (cnt - i) i s =
      (pagedirSetPage k pd (pgSize * (pg + i)) (s.userPool.base + pgSize * (idx + i))
        true s).bind fun r =>
          if r.1 then
            growLoop k pd (pgSize * pg) (s.userPool.base + pgSize * idx) cnt (cnt - (i + 1)) (i + 1)
              r.2
          else undoGrow pd (pgSize * pg) (s.userPool.base + pgSize * idx) cnt i r.2 := by
  have hpage : (pgSize * pg + i * pgSize) % 2 ^ 32 = pgSize * (pg + i) := by
    rw [Nat.mul_comm i, ← Nat.mul_add, Nat.mod_eq_of_lt]
    unfold pgSize at *
    omega
  have hframe : (s.userPool.base + pgSize * idx + i * pgSize) % 2 ^ 32 =
      s.userPool.base + pgSize * (idx + i) := by
    have hlt : idx + i < s.userPool.usedMap.bitCnt := by omega
    have hbound : s.userPool.base + pgSize * (idx + i) + pgSize ≤ 2 ^ 32 :=
      (isPage_of_lt true h.layout hlt).bound
    rw [Nat.mul_comm i, Nat.add_assoc, ← Nat.mul_add, Nat.mod_eq_of_lt]
    unfold pgSize at *
    omega
  rw [show cnt - i = cnt - (i + 1) + 1 by omega, growLoop, hpage, hframe]

theorem growLoop_reaches (hi : i ≤ cnt) (hvacant : ∀ j < i, Vacant M (pg + j))
    (hfree : missing T pg i ≤ freePages s) :
    ∃ s' T', growLoop k pd (pgSize * pg) (s.userPool.base + pgSize * idx) cnt cnt 0 s =
        growLoop k pd (pgSize * pg) (s.userPool.base + pgSize * idx) cnt (cnt - i) i s' ∧
      Space k s' pd T' (withRun M pg (s.userPool.base + pgSize * idx) i) ∧ Keeps s s' ∧
      (∀ x, T' x = none ↔ T x = none ∧ ∀ j < i, (pg + j) / 1024 ≠ x) ∧
      freePages s = freePages s' + missing T pg i := by
  induction i with
  | zero =>
    refine ⟨s, T, rfl, ?_, Keeps.refl s, fun x => ?_, ?_⟩
    · rwa [withRun_zero]
    · simp
    · rw [missing_zero, Nat.add_zero]
  | succ i ih =>
    have hle : missing T pg i ≤ missing T pg (i + 1) := by
      rw [missing_succ]
      exact Nat.le_add_right _ _
    obtain ⟨s', T', hloop, hs', hkeep, hT', hcount⟩ :=
      ih (by omega) (fun j hj => hvacant j (by omega)) (hle.trans hfree)
    obtain ⟨huser, hM⟩ := hvacant i (Nat.lt_succ_self i)
    have hM' : withRun M pg (s.userPool.base + pgSize * idx) i (pg + i) = none :=
      (if_neg (by omega)).trans hM
    have hidx' : idx + i < s'.userPool.usedMap.bitCnt := by
      rw [hkeep.userPool]
      omega
    have hstep := hs'.growLoop_succ (hkeep.userPool.symm ▸ hidx) hpg hi
    rw [← hkeep.userPool] at hloop hM' hs' ⊢
    have hsucc := missing_step hT'
    rcases hs'.setPage huser hM' hidx' with ⟨hnone, hzero, -⟩ | ⟨s'', T'', hset, hs'', hkeep',
      hT'', hcount', -⟩
    · rw [if_pos hnone] at hsucc
      omega
    · refine ⟨s'', T'', ?_, ?_, hkeep.trans hkeep', fun x => ?_, ?_⟩
      · rw [hloop, hstep, hset]
        rfl
      · rw [withRun_succ, Nat.add_assoc, ← Nat.mul_add]
        exact hs''
      · rw [hT'', hT']
        constructor
        · rintro ⟨⟨hx, hj⟩, hne⟩
          refine ⟨hx, fun j hj' => ?_⟩
          rcases Nat.lt_succ_iff_lt_or_eq.mp hj' with hj' | rfl
          · exact hj j hj'
          · exact fun heq => hne heq.symm
        · rintro ⟨hx, hj⟩
          exact ⟨⟨hx, fun j hj' => hj j (by omega)⟩, fun heq => hj i (Nat.lt_succ_self i) heq.symm⟩
      · omega

theorem growLoop_true (hvacant : ∀ j < cnt, Vacant M (pg + j))
    (hfree : missing T pg cnt ≤ freePages s) :
    ∃ s' T', growLoop k pd (pgSize * pg) (s.userPool.base + pgSize * idx) cnt cnt 0 s =
        some (true, s') ∧
      Space k s' pd T' (withRun M pg (s.userPool.base + pgSize * idx) cnt) ∧ Keeps s s' := by
  obtain ⟨s', T', hloop, hs', hkeep, -⟩ := h.growLoop_reaches hidx hpg le_rfl hvacant hfree
  rw [Nat.sub_self] at hloop
  exact ⟨s', T', hloop, hs', hkeep⟩

theorem growLoop_none (hi : i < cnt) (hvacant : ∀ j < i, Vacant M (pg + j))
    (hfree : missing T pg i ≤ freePages s) (hnot : ¬ Vacant M (pg + i)) :
    growLoop k pd (pgSize * pg) (s.userPool.base + pgSize * idx) cnt cnt 0 s = none := by
  obtain ⟨s', T', hloop, hs', hkeep, -⟩ := h.growLoop_reaches hidx hpg hi.le hvacant hfree
  have hidx' : idx + i < s'.userPool.usedMap.bitCnt := by
    rw [hkeep.userPool]
    omega
  rw [hloop, ← hkeep.userPool, hs'.growLoop_succ (hkeep.userPool.symm ▸ hidx) hpg hi]
  by_cases huser : isUserVaddr (pgSize * (pg + i))
  · obtain ⟨frame, hframe⟩ := ne_none_iff_exists'.mp fun hM => hnot ⟨huser, hM⟩
    have hno : pgNo (pgSize * (pg + i)) = pg + i := Nat.mul_div_cancel_left _ (by decide)
    have hM' : withRun M pg (s.userPool.base + pgSize * idx) i (pgNo (pgSize * (pg + i))) =
        some frame := by
      rw [hno, withRun, if_neg (by omega), hframe]
    rw [Maps.setPage_mapped hs'.maps (hs'.canSet huser hidx') hM']
    rfl
  · rw [pagedirSetPage, if_neg fun hok => huser hok.2.2.1]
    rfl

end

theorem undoGrow (h : Space k s pd T (withRun M pg (s.userPool.base + pgSize * idx) i))
    (hcnt : cnt ≠ 0) (hidx : idx + cnt ≤ s.userPool.usedMap.bitCnt)
    (hmarked : ∀ j < cnt, s.userPool.usedMap.bit (idx + j) = true)
    (hpg : pgSize * (pg + i) < 2 ^ 32) (hvacant : ∀ j < i, Vacant M (pg + j)) :
    ∃ s' b, undoGrow pd (pgSize * pg) (s.userPool.base + pgSize * idx) cnt i s =
        some (false, s') ∧
      Space k s' pd T M ∧ s'.userPool = { s.userPool with usedMap := b } ∧
      b.bitCnt = s.userPool.usedMap.bitCnt ∧
      b.bit = bitmapSetMultiple s.userPool.usedMap.bit idx cnt false := by
  have hpage : ∀ j < i, (pgSize * pg + j * pgSize) % 2 ^ 32 = pgSize * (pg + j) := by
    intro j hj
    rw [Nat.mul_comm j, ← Nat.mul_add, Nat.mod_eq_of_lt]
    unfold pgSize at *
    omega
  obtain ⟨s1, hclear, hs1, hkeep, -⟩ := h.clearPages
    (fun j => (pgSize * pg + j * pgSize) % 2 ^ 32) (fun j => pg + j) i
    fun j hj => ⟨hpage j hj, hpage j hj ▸ (hvacant j hj).1⟩
  rw [unmap_withRun fun j hj => (hvacant j hj).2] at hs1
  rw [← hkeep.userPool] at hidx hmarked ⊢
  obtain ⟨s2, b, hfree, hs2, hrest⟩ := hs1.freeUser hcnt hidx hmarked
  refine ⟨s2, b, ?_, hs2, hrest⟩
  rw [Memory.undoGrow, hclear, bind_some, hfree]
  rfl

theorem growLoop_false (h : Space k s pd T M) (hidx : idx + cnt ≤ s.userPool.usedMap.bitCnt)
    (hcnt : cnt ≠ 0) (hmarked : ∀ j < cnt, s.userPool.usedMap.bit (idx + j) = true)
    (hpg : pgSize * (pg + cnt) < 2 ^ 32) (hi : i ≤ cnt) (hvacant : ∀ j < i, Vacant M (pg + j))
    (hfree : freePages s < missing T pg i) :
    ∃ s' T' b, growLoop k pd (pgSize * pg) (s.userPool.base + pgSize * idx) cnt cnt 0 s =
        some (false, s') ∧
      Space k s' pd T' M ∧ s'.userPool = { s.userPool with usedMap := b } ∧
      b.bitCnt = s.userPool.usedMap.bitCnt ∧
      b.bit = bitmapSetMultiple s.userPool.usedMap.bit idx cnt false := by
  -- the first page whose page table cannot be had
  induction i with
  | zero => cases hfree
  | succ i ih =>
    by_cases hless : freePages s < missing T pg i
    · exact ih (by omega) (fun j hj => hvacant j (by omega)) hless
    · have hvacant' : ∀ j < i, Vacant M (pg + j) := fun j hj => hvacant j (by omega)
      obtain ⟨s', T', hloop, hs', hkeep, hT', hcount⟩ := h.growLoop_reaches hidx hpg
        (Nat.le_of_succ_le hi) hvacant' (not_lt.mp hless)
      obtain ⟨huser, hM⟩ := hvacant i (Nat.lt_succ_self i)
      have hpage : pgSize * (pg + i) < 2 ^ 32 := by
        unfold pgSize at *
        omega
      rw [← hkeep.userPool] at hidx hmarked hloop hs' ⊢
      have hM' : withRun M pg (s'.userPool.base + pgSize * idx) i (pg + i) = none :=
        (if_neg (by omega)).trans hM
      have hidx' : idx + i < s'.userPool.usedMap.bitCnt := by omega
      have hstep := hs'.growLoop_succ hidx hpg hi
      rcases hs'.setPage huser hM' hidx' with
        ⟨-, -, hset⟩ | ⟨s'', T'', -, -, -, -, hcount'⟩
      · obtain ⟨s1, b, hundo, hs1, hrest⟩ := hs'.undoGrow hcnt hidx hmarked hpage hvacant'
        refine ⟨s1, T', b, ?_, hs1, hrest⟩
        rw [hloop, hstep, hset]
        exact hundo
      · have hsucc := missing_step hT'
        omega

end Space

end Loops

section Branches

variable {k : Globals} {s : Palloc} {pd pg idx cnt : ℕ} {T M : ℕ → Option ℕ}

theorem bitCnt_le (h : s.Layout) : s.userPool.usedMap.bitCnt ≤ 2 ^ 18 := by
  obtain ⟨-, hkernel, hmap, hlimit⟩ := h.ok true
  change loaderPhysBase < s.userPool.mapAddr at hkernel
  change s.userPool.mapAddr + _ ≤ s.userPool.base at hmap
  change s.userPool.limit ≤ _ at hlimit
  unfold Pool.limit pgSize at hlimit
  unfold loaderPhysBase at hkernel
  omega

def NoRun (s : Palloc) (cnt : ℕ) : Prop :=
  ∀ idx, idx + cnt ≤ s.userPool.usedMap.bitCnt →
    ∃ j < cnt, s.userPool.usedMap.bit (idx + j) = true

theorem noRun_of_scan (h : bitmapScan s.userPool.usedMap.bit s.userPool.usedMap.bitCnt cnt = none) :
    NoRun s cnt := by
  intro idx hidx
  obtain ⟨i, hi, hi', hbit⟩ := bitmapScan_none h hidx
  refine ⟨i - idx, by omega, ?_⟩
  rwa [Nat.add_sub_cancel' hi]

theorem exists_scan (h : ¬ NoRun s cnt) :
    ∃ idx, bitmapScan s.userPool.usedMap.bit s.userPool.usedMap.bitCnt cnt = some idx :=
  ne_none_iff_exists'.mp fun hnone => h (noRun_of_scan hnone)

theorem NoRun.scan_eq (h : NoRun s cnt) :
    bitmapScan s.userPool.usedMap.bit s.userPool.usedMap.bitCnt cnt = none := by
  by_contra hsome
  obtain ⟨idx, hscan⟩ := ne_none_iff_exists'.mp hsome
  obtain ⟨hin, hclear⟩ := bitmapScan_some hscan
  obtain ⟨j, hj, hbit⟩ := h idx hin
  rw [hclear _ (Nat.le_add_right _ _) (by omega)] at hbit
  cases hbit

namespace Space

theorem growBrk_none (h : Space k s pd T M) (hcnt : cnt ≠ 0) (hpg : pgSize * (pg + cnt) < 2 ^ 32)
    (hrun : NoRun s cnt) :
    growBrk k pd (pgSize * pg) (pgSize * (pg + cnt)) s = some (false, s) := by
  have hbound := bitCnt_le h.layout
  obtain ⟨hne, hnone⟩ : pgCnt (pgSize * (pg + cnt)) (pgSize * pg) ≠ 0 ∧
      bitmapScan s.userPool.usedMap.bit s.userPool.usedMap.bitCnt
        (pgCnt (pgSize * (pg + cnt)) (pgSize * pg)) = none := by
    by_cases hlt : cnt < 2 ^ 19
    · rw [pgCnt_eq hlt]
      exact ⟨hcnt, hrun.scan_eq⟩
    · have hle := le_pgCnt (b := pg) (not_lt.mp hlt) (by unfold pgSize at hpg; omega)
      refine ⟨by omega, NoRun.scan_eq fun idx hidx => ?_⟩
      omega
  have hget := @Palloc.getMultiple_none s { user := true, zero := true } _ h.layout hne hnone
  rw [growBrk, hget]
  rfl

theorem growBrk_some (h : Space k s pd T M) (pg : ℕ) (hcnt : cnt ≠ 0) (hrun : ¬ NoRun s cnt) :
    ∃ s' idx b, growBrk k pd (pgSize * pg) (pgSize * (pg + cnt)) s =
        growLoop k pd (pgSize * pg) (s'.userPool.base + pgSize * idx) cnt cnt 0 s' ∧
      Space k s' pd T M ∧ s'.userPool = { s.userPool with usedMap := b } ∧
      bitmapScan s.userPool.usedMap.bit s.userPool.usedMap.bitCnt cnt = some idx ∧
      freePages s' = freePages s ∧ idx + cnt ≤ s'.userPool.usedMap.bitCnt ∧
      b.bitCnt = s.userPool.usedMap.bitCnt ∧
      b.bit = bitmapSetMultiple s.userPool.usedMap.bit idx cnt true ∧
      ∀ x, s.userPool.InRun idx cnt x → s'.mem x = 0 := by
  have hbound := bitCnt_le h.layout
  obtain ⟨idx, hscan⟩ := exists_scan hrun
  obtain ⟨hin, -⟩ := bitmapScan_some hscan
  obtain ⟨s', b, hget, hs', hpool, hkernel, hbcnt, hbit, hzero, -⟩ := h.getUser hcnt true hscan
  refine ⟨s', idx, b, ?_, hs', hpool, hscan, ?_, ?_, hbcnt, hbit, hzero rfl⟩
  · rw [growBrk, pgCnt_eq (by omega), hget, hpool]
    rfl
  · unfold freePages
    rw [hkernel]
  · rw [hpool]
    exact hbcnt ▸ hin

/-- The pages from `pg` on are mapped to the frames of a run that was free. -/
def RunMapped (k : Globals) (s : Palloc) (pd : ℕ) (M : ℕ → Option ℕ) (pg cnt : ℕ) (s' : Palloc) :
    Prop :=
  ∃ T' idx b, Space k s' pd T' (withRun M pg (s.userPool.base + pgSize * idx) cnt) ∧
    bitmapScan s.userPool.usedMap.bit s.userPool.usedMap.bitCnt cnt = some idx ∧
    s'.userPool = { s.userPool with usedMap := b } ∧ b.bitCnt = s.userPool.usedMap.bitCnt ∧
    b.bit = bitmapSetMultiple s.userPool.usedMap.bit idx cnt true ∧
    ∀ x, s.userPool.InRun idx cnt x → s'.mem x = 0

variable {i : ℕ}

section

variable (h : Space k s pd T M) (hcnt : cnt ≠ 0) (hpg : pgSize * (pg + cnt) < 2 ^ 32)

include h hcnt hpg

theorem growBrk_false (hrun : ¬ NoRun s cnt) (hi : i ≤ cnt)
    (hvacant : ∀ j < i, Vacant M (pg + j)) (hfree : freePages s < missing T pg i) :
    ∃ s' T', growBrk k pd (pgSize * pg) (pgSize * (pg + cnt)) s = some (false, s') ∧
      Space k s' pd T' M ∧ s'.userPool = s.userPool := by
  obtain ⟨s1, idx, b, hgrow, hs1, hpool, hscan, hfree1, hin1, hbcnt, hbit, -⟩ :=
    h.growBrk_some pg hcnt hrun
  obtain ⟨-, hclear⟩ := bitmapScan_some hscan
  obtain ⟨s2, T2, b2, hloop, hs2, hpool2, hbcnt2, hbit2⟩ := hs1.growLoop_false hin1 hcnt
    (fun j hj => by rw [hpool, hbit]; exact if_pos (by omega)) hpg hi hvacant (hfree1 ▸ hfree)
  refine ⟨s2, T2, hgrow.trans hloop, hs2, ?_⟩
  rw [hpool] at hbcnt2 hbit2 hpool2
  -- the bits that were set are cleared again
  have hb : b2 = s.userPool.usedMap := by
    refine Bitmap.ext_bit (hbcnt2.trans hbcnt) fun i => ?_
    rw [hbit2, hbit]
    unfold bitmapSetMultiple
    split_ifs with hi
    · exact (hclear i hi.1 hi.2).symm
    · rfl
  rw [hpool2, hb]

theorem growBrk_true (hrun : ¬ NoRun s cnt) (hvacant : ∀ j < cnt, Vacant M (pg + j))
    (hfree : missing T pg cnt ≤ freePages s) :
    ∃ s', growBrk k pd (pgSize * pg) (pgSize * (pg + cnt)) s = some (true, s') ∧
      RunMapped k s pd M pg cnt s' := by
  obtain ⟨s1, idx, b, hgrow, hs1, hpool, hscan, hfree1, hin1, hbcnt, hbit, hzero⟩ :=
    h.growBrk_some pg hcnt hrun
  have hin : idx + cnt ≤ s.userPool.usedMap.bitCnt := (bitmapScan_some hscan).1
  obtain ⟨s2, T2, hloop, hs2, hkeep⟩ := hs1.growLoop_true hin1 hpg hvacant (hfree1 ▸ hfree)
  rw [hpool] at hs2
  refine ⟨s2, hgrow.trans hloop, T2, idx, b, hs2, hscan, hkeep.userPool.trans hpool, hbcnt, hbit,
    fun x hx => (hkeep.mem x ?_).trans (hzero x hx)⟩
  rw [hpool]
  unfold Pool.InRun at hx
  unfold Pool.Has Pool.limit
  dsimp only
  rw [hbcnt]
  unfold pgSize at *
  omega

theorem growBrk_vacant (hvacant : ∀ j < cnt, Vacant M (pg + j)) :
    (∃ s' T', growBrk k pd (pgSize * pg) (pgSize * (pg + cnt)) s = some (false, s') ∧
      Space k s' pd T' M ∧ s'.userPool = s.userPool) ∨ ∃ s', growBrk k pd (pgSize * pg)
      (pgSize * (pg + cnt)) s = some (true, s') ∧ RunMapped k s pd M pg cnt s' := by
  by_cases hrun : NoRun s cnt
  · exact .inl ⟨s, T, h.growBrk_none hcnt hpg hrun, h, rfl⟩
  · rcases Nat.lt_or_ge (freePages s) (missing T pg cnt) with hless | hfree
    · exact .inl (h.growBrk_false hcnt hpg hrun le_rfl hvacant hless)
    · exact .inr (h.growBrk_true hcnt hpg hrun hvacant hfree)

theorem growBrk_panics (hrun : ¬ NoRun s cnt) (hi : i < cnt)
    (hvacant : ∀ j < i, Vacant M (pg + j)) (hfree : missing T pg i ≤ freePages s)
    (hnot : ¬ Vacant M (pg + i)) : growBrk k pd (pgSize * pg) (pgSize * (pg + cnt)) s = none := by
  obtain ⟨s1, idx, b, hgrow, hs1, -, -, hfree1, hin1, -⟩ := h.growBrk_some pg hcnt hrun
  rw [hgrow]
  exact hs1.growLoop_none hin1 hpg hi hvacant (hfree1 ▸ hfree) hnot

end

theorem shrink_page (hpg : pgSize * (pg + cnt) < 2 ^ 32) (hi : i < pg + cnt) :
    (pgSize * (pg + cnt) + (2 ^ 32 - (i + 1) * pgSize % 2 ^ 32)) % 2 ^ 32 =
      pgSize * (pg + cnt - (i + 1)) := by
  unfold pgSize at *
  omega

theorem shrinkBrk_huge (h : Space k s pd T M) (hpg : pgSize * (pg + cnt) ≤ loaderPhysBase)
    (hcnt : 2 ^ 19 ≤ cnt) : shrinkBrk pd (pgSize * (pg + cnt)) (pgSize * pg) s = none := by
  have huser : isUserVaddr (pgSize * pg) := by
    unfold isUserVaddr
    unfold pgSize at *
    omega
  have hlt : pg + cnt < 2 ^ 20 := by
    unfold pgSize loaderPhysBase at hpg
    omega
  have hle := le_pgCnt (b := pg) hcnt (by omega)
  have hget : pagedirGetPage pd (pgSize * pg) s = some (translate M (pgSize * pg)) :=
    Maps.getPage_eq h.maps huser
  have hnot : ¬ isUserVaddr ((pgSize * (pg + cnt) +
      (2 ^ 32 - (pg + cnt + 1) * pgSize % 2 ^ 32)) % 2 ^ 32) := by
    unfold isUserVaddr loaderPhysBase pgSize
    omega
  rw [shrinkBrk, hget, bind_some, clearPages_none (i := pg + cnt) (by omega) hnot]
  rfl

theorem unmap_down (M : ℕ → Option ℕ) (pg cnt n : ℕ) :
    unmap M (fun i => pg + cnt - (i + 1)) cnt n = if pg ≤ n ∧ n < pg + cnt then none else M n := by
  refine if_congr ⟨fun ⟨i, hi, heq⟩ => ?_, fun hn => ⟨pg + cnt - (n + 1), by omega, ?_⟩⟩ rfl rfl
  · change pg + cnt - (i + 1) = n at heq
    omega
  · change pg + cnt - (pg + cnt - (n + 1) + 1) = n
    omega

theorem shrinkBrk_eq (h : Space k s pd T M) (hpg : pgSize * (pg + cnt) ≤ loaderPhysBase)
    (hcnt : cnt ≠ 0) (hlt : cnt < 2 ^ 19) :
    ∃ s', Space k s' pd T (fun n => if pg ≤ n ∧ n < pg + cnt then none else M n) ∧ Keeps s s' ∧
      shrinkBrk pd (pgSize * (pg + cnt)) (pgSize * pg) s = (M pg).elim (some (false, s'))
        fun frame => (s'.freeMultiple frame cnt).map fun s => (true, s) := by
  have huser : ∀ n < pg + cnt, isUserVaddr (pgSize * n) := by
    intro n hn
    unfold isUserVaddr
    unfold pgSize at *
    omega
  have hpg' : pgSize * (pg + cnt) < 2 ^ 32 := hpg.trans_lt (by decide)
  have hget : pagedirGetPage pd (pgSize * pg) s = some (translate M (pgSize * pg)) :=
    Maps.getPage_eq h.maps (huser pg (by omega))
  obtain ⟨s', hclear, hs', hkeep, -⟩ := h.clearPages
    (fun i => (pgSize * (pg + cnt) + (2 ^ 32 - (i + 1) * pgSize % 2 ^ 32)) % 2 ^ 32)
    (fun i => pg + cnt - (i + 1)) cnt fun i hi => by
      rw [shrink_page hpg' (by omega)]
      exact ⟨rfl, huser _ (by omega)⟩
  rw [funext (unmap_down M pg cnt)] at hs'
  refine ⟨s', hs', hkeep, ?_⟩
  rw [shrinkBrk, pgCnt_eq hlt, hget, bind_some, hclear, bind_some, Userprog.translate, pgNo,
    Nat.mul_div_cancel_left _ (by decide), pgOfs, Nat.mul_mod_right]
  cases hM : M pg with
  | none => rfl
  | some frame =>
    obtain ⟨j, hj, hframe⟩ := h.frames pg frame hM
    have hkernel : loaderPhysBase ≤ frame := hframe ▸ (isPage_of_lt true h.layout hj).kernel
    refine if_neg fun hzero : frame + 0 = 0 => ?_
    rw [Nat.add_zero] at hzero
    rw [hzero] at hkernel
    exact absurd hkernel (by decide)

end Space

end Branches

/-- The break is where the heap may end. -/
def Process.InRange (p : Process) (brk : ℕ) : Prop :=
  p.heapStart ≤ brk ∧ brk ≤ loaderPhysBase

/-- The call returns the old break and the new one is in range, or it returns -1 and the break,
the mappings of the process and the user pool are as they were. -/
def SbrkSound (p : Process) (increment : BitVec 32) (s : Palloc) :
    Option (ℕ × Process × Palloc) → Prop
  | none => False
  | some (result, p', s') =>
    result = p.brk ∧ p' = { p with brk := p.trgBrk increment } ∧ p.InRange p'.brk ∨
    result = 2 ^ 32 - 1 ∧ p' = p ∧
      (∀ n, frameOf s' p.pagedir n = frameOf s p.pagedir n) ∧ s'.userPool = s.userPool

/-- The page table for the pages from `1024 * i` on. -/
def tableOf (s : Palloc) (pd i : ℕ) : Option ℕ :=
  if s.mem.word (pd + 4 * i) = 0 then none else pdeGetPt (s.mem.word (pd + 4 * i))

/-- When a call that raises the break to the page `trg` does no harm: there are no frames; or
page tables run out before a page that cannot be mapped is reached; or all pages can be
mapped. -/
def GrowOk (p : Process) (s : Palloc) (brk src trg : ℕ) : Prop :=
  NoRun s (trg - src) ∨
  (∃ i ≤ trg - src, (∀ j < i, Vacant (frameOf s p.pagedir) (src + j)) ∧
    freePages s < missing (tableOf s p.pagedir) src i) ∨
  (∀ j < trg - src, Vacant (frameOf s p.pagedir) (src + j)) ∧ p.InRange brk

/-- When a call that lowers the break to the page `trg` does no harm: the pages are less than
two gigabytes, and none of them is mapped; or the break stays in range, and the frame of
the lowest page and those that follow it in memory are in use. -/
def ShrinkOk (p : Process) (s : Palloc) (brk src trg : ℕ) : Prop :=
  src - trg < 2 ^ 19 ∧
  ((∀ n, trg ≤ n → n < src → frameOf s p.pagedir n = none) ∨
  p.InRange brk ∧ ∃ idx, frameOf s p.pagedir trg = some (s.userPool.base + pgSize * idx) ∧
    idx + (src - trg) ≤ s.userPool.usedMap.bitCnt ∧
    ∀ j < src - trg, s.userPool.usedMap.bit (idx + j) = true)

def SbrkOk (p : Process) (increment : BitVec 32) (s : Palloc) : Prop :=
  let brk := p.trgBrk increment
  let src := pgRoundUp p.brk / pgSize
  let trg := pgRoundUp brk / pgSize
  src = trg ∧ p.InRange brk ∨ src < trg ∧ GrowOk p s brk src trg ∨
    trg < src ∧ ShrinkOk p s brk src trg

section Call

variable {k : Globals} {p : Process} {s s' : Palloc} {increment : BitVec 32} {src trg : ℕ}
  {T M : ℕ → Option ℕ}

section

variable (hbrk : p.brk ≤ loaderPhysBase)

include hbrk

theorem trgBrk_zero : p.trgBrk 0#32 = p.brk :=
  Nat.mod_eq_of_lt (hbrk.trans_lt (by decide))

theorem syscallSbrk_eq :
    syscallSbrk k p increment s =
      (if pgRoundUp p.brk / pgSize = pgRoundUp (p.trgBrk increment) / pgSize then some (true, s)
      else if pgRoundUp p.brk / pgSize < pgRoundUp (p.trgBrk increment) / pgSize then
        growBrk k p.pagedir (pgSize * (pgRoundUp p.brk / pgSize))
          (pgSize * (pgRoundUp (p.trgBrk increment) / pgSize)) s
      else shrinkBrk p.pagedir (pgSize * (pgRoundUp p.brk / pgSize))
          (pgSize * (pgRoundUp (p.trgBrk increment) / pgSize)) s).map
        (sbrkResult p increment) := by
  by_cases hzero : increment = 0#32
  · subst hzero
    rw [trgBrk_zero hbrk, if_pos rfl, map_some, sbrkResult, trgBrk_zero hbrk]
    exact if_pos rfl
  · rw [syscallSbrk, if_neg hzero, fitBrkPg, pgSize_mul_div (pgRoundUp_mod _),
      pgSize_mul_div (pgRoundUp_mod _)]
    have hsrc := pgRoundUp_mod p.brk
    have htrg := pgRoundUp_mod (p.trgBrk increment)
    refine congrArg (Option.map _) (if_congr ?_ rfl (if_congr ?_ rfl rfl))
    · unfold pgSize at *
      omega
    · unfold pgSize at *
      omega

theorem sound_some_true :
    SbrkSound p increment s (some (p.brk, { p with brk := p.trgBrk increment }, s')) ↔
      p.InRange (p.trgBrk increment) := by
  refine ⟨?_, fun h => .inl ⟨rfl, rfl, h⟩⟩
  rintro (⟨-, -, h⟩ | ⟨h, -⟩)
  · exact h
  · rw [h] at hbrk
    exact absurd hbrk (by decide)

theorem sound_some_false :
    SbrkSound p increment s (some (2 ^ 32 - 1, p, s')) ↔
      (∀ n, frameOf s' p.pagedir n = frameOf s p.pagedir n) ∧ s'.userPool = s.userPool := by
  refine ⟨?_, fun h => .inr ⟨rfl, rfl, h⟩⟩
  rintro (⟨h, -⟩ | ⟨-, -, h⟩)
  · rw [← h] at hbrk
    exact absurd hbrk (by decide)
  · exact h

end

theorem Space.tableOf_eq {pd i : ℕ} (h : Space k s pd T M) (hi : i < userTables) :
    tableOf s pd i = T i := by
  rw [tableOf, h.maps.pde i hi]
  cases ht : T i with
  | none => exact if_pos rfl
  | some t => exact (if_neg (by simp)).trans (pdeGetPt_eq (h.maps.table i t ht).2.1)

theorem Space.missing_tableOf {pd pg cnt : ℕ} (h : Space k s pd T M)
    (hvacant : ∀ j < cnt, Vacant M (pg + j)) :
    missing (tableOf s pd) pg cnt = missing T pg cnt := by
  refine congrArg card (filter_congr fun i hi => ?_)
  obtain ⟨j, hj, rfl⟩ := mem_image.mp hi
  have huser := (hvacant j (mem_range.mp hj)).1
  rw [h.tableOf_eq]
  unfold isUserVaddr loaderPhysBase pgSize at huser
  unfold userTables
  omega

theorem Space.grow_sound (h : Space k s p.pagedir T M) (hbrk : p.brk ≤ loaderPhysBase)
    (hlt : src < trg) (htrg : pgSize * trg < 2 ^ 32) :
    SbrkSound p increment s
        ((growBrk k p.pagedir (pgSize * src) (pgSize * trg) s).map (sbrkResult p increment)) ↔
      GrowOk p s (p.trgBrk increment) src trg := by
  obtain ⟨cnt, rfl⟩ := Nat.exists_eq_add_of_le hlt.le
  have hcnt : cnt ≠ 0 := by omega
  have hM : frameOf s p.pagedir = M := funext h.frameOf_eq
  rw [GrowOk, hM, Nat.add_sub_cancel_left]
  by_cases hrun : NoRun s cnt
  · rw [h.growBrk_none hcnt htrg hrun]
    exact iff_of_true ((sound_some_false hbrk).mpr ⟨fun _ => rfl, rfl⟩) (.inl hrun)
  by_cases hout : ∃ i ≤ cnt, (∀ j < i, Vacant M (src + j)) ∧
      freePages s < missing (tableOf s p.pagedir) src i
  · refine iff_of_true ?_ (.inr (.inl hout))
    obtain ⟨i, hi, hvacant, hless⟩ := hout
    rw [h.missing_tableOf hvacant] at hless
    obtain ⟨s', T', hgrow, hs', hpool⟩ := h.growBrk_false hcnt htrg hrun hi hvacant hless
    rw [hgrow]
    refine (sound_some_false hbrk).mpr ⟨fun n => ?_, hpool⟩
    rw [hs'.frameOf_eq, h.frameOf_eq]
  have henough : ∀ i ≤ cnt, (∀ j < i, Vacant M (src + j)) → missing T src i ≤ freePages s := by
    intro i hi hvacant
    by_contra hless
    refine hout ⟨i, hi, hvacant, ?_⟩
    rw [h.missing_tableOf hvacant]
    omega
  by_cases hvacant : ∀ j < cnt, Vacant M (src + j)
  · obtain ⟨s', hgrow, -⟩ := h.growBrk_true hcnt htrg hrun hvacant (henough cnt le_rfl hvacant)
    rw [hgrow]
    refine (sound_some_true hbrk).trans ⟨fun h => .inr (.inr ⟨hvacant, h⟩), ?_⟩
    rintro (hno | hno | ⟨-, h⟩)
    · exact absurd hno hrun
    · exact absurd hno hout
    · exact h
  · -- the first page that is not vacant
    obtain ⟨i, hi, hnot, hbefore⟩ : ∃ i < cnt, ¬ Vacant M (src + i) ∧
        ∀ j < i, Vacant M (src + j) := by
      classical
      push Not at hvacant
      obtain ⟨hi, hnot⟩ := Nat.find_spec hvacant
      refine ⟨Nat.find hvacant, hi, hnot, fun j hj => ?_⟩
      by_contra hj'
      exact Nat.find_min hvacant hj ⟨by omega, hj'⟩
    rw [h.growBrk_panics hcnt htrg hrun hi hbefore (henough i hi.le hbefore) hnot]
    refine iff_of_false id ?_
    rintro (hno | hno | ⟨hno, -⟩)
    · exact hrun hno
    · exact hout hno
    · exact hvacant hno

theorem Space.shrink_sound (h : Space k s p.pagedir T M) (hbrk : p.brk ≤ loaderPhysBase)
    (hlt : trg < src) (hsrc : pgSize * src ≤ loaderPhysBase) :
    SbrkSound p increment s
        ((shrinkBrk p.pagedir (pgSize * src) (pgSize * trg) s).map (sbrkResult p increment)) ↔
      ShrinkOk p s (p.trgBrk increment) src trg := by
  obtain ⟨cnt, rfl⟩ := Nat.exists_eq_add_of_le hlt.le
  have hcnt : cnt ≠ 0 := by omega
  have hM : frameOf s p.pagedir = M := funext h.frameOf_eq
  rw [ShrinkOk, hM, Nat.add_sub_cancel_left]
  by_cases hsmall : cnt < 2 ^ 19
  swap
  · rw [h.shrinkBrk_huge hsrc (not_lt.mp hsmall)]
    exact iff_of_false id fun hno => hsmall hno.1
  obtain ⟨s', hs', hkeep, hshrink⟩ := h.shrinkBrk_eq hsrc hcnt hsmall
  rw [hshrink]
  cases htrg : M trg with
  | none =>
    refine (sound_some_false hbrk).trans ⟨fun hsame => ⟨hsmall, .inl fun n hn hn' => ?_⟩, ?_⟩
    · have heq := hsame.1 n
      rw [hs'.frameOf_eq, h.frameOf_eq, if_pos ⟨hn, hn'⟩] at heq
      exact heq.symm
    · rintro ⟨-, hnone | ⟨-, idx, hsome, -⟩⟩
      · refine ⟨fun n => ?_, hkeep.userPool⟩
        rw [hs'.frameOf_eq, h.frameOf_eq]
        split_ifs with hn
        · exact (hnone n hn.1 hn.2).symm
        · rfl
      · cases hsome
  | some frame =>
    obtain ⟨idx, hidx, rfl⟩ := h.frames trg frame htrg
    have hmapped : ¬ ∀ n, trg ≤ n → n < trg + cnt → M n = none := fun hno => by
      rw [hno trg le_rfl (by omega)] at htrg
      cases htrg
    -- the frames from that of the lowest page on
    have hrun : (∃ j, some (s.userPool.base + pgSize * idx) =
          some (s.userPool.base + pgSize * j) ∧ j + cnt ≤ s.userPool.usedMap.bitCnt ∧
          ∀ i < cnt, s.userPool.usedMap.bit (j + i) = true) ↔
        idx + cnt ≤ s.userPool.usedMap.bitCnt ∧
          ∀ i < cnt, s.userPool.usedMap.bit (idx + i) = true := by
      refine ⟨fun ⟨j, hj, hfree⟩ => ?_, fun hfree => ⟨idx, rfl, hfree⟩⟩
      obtain rfl : idx = j := by
        have := some.inj hj
        unfold pgSize at this
        omega
      exact hfree
    rw [hrun]
    rw [← hkeep.userPool] at hidx ⊢
    by_cases hmarked : idx + cnt ≤ s'.userPool.usedMap.bitCnt ∧
        ∀ i < cnt, s'.userPool.usedMap.bit (idx + i) = true
    · obtain ⟨s'', b, hfree, -⟩ := hs'.freeUser hcnt hmarked.1 hmarked.2
      rw [elim_some, hfree]
      refine (sound_some_true hbrk).trans ⟨fun h => ⟨hsmall, .inr ⟨h, hmarked⟩⟩, ?_⟩
      rintro ⟨-, hno | ⟨h, -⟩⟩
      · exact absurd hno hmapped
      · exact h
    · rw [elim_some, hs'.freeUser_none hcnt (by omega) hidx hmarked]
      refine iff_of_false id ?_
      rintro ⟨-, hno | ⟨-, hno⟩⟩
      · exact hmapped hno
      · exact hmarked hno

/-- A call of `sbrk` does no harm exactly when `SbrkOk` holds of the state and the increment. -/
theorem sbrkSound_iff (h : Space k s p.pagedir T M) (hbrk : p.brk ≤ loaderPhysBase)
    (increment : BitVec 32) :
    SbrkSound p increment s (syscallSbrk k p increment s) ↔ SbrkOk p increment s := by
  have hsrc := pgRoundUp_le hbrk
  have htrg := pgRoundUp_lt (p.trgBrk increment)
  rw [syscallSbrk_eq hbrk, SbrkOk]
  rw [← pgSize_mul_div (pgRoundUp_mod _)] at hsrc htrg
  rcases Nat.lt_trichotomy (pgRoundUp p.brk / pgSize)
    (pgRoundUp (p.trgBrk increment) / pgSize) with hlt | heq | hlt
  · rw [if_neg hlt.ne, if_pos hlt, h.grow_sound hbrk hlt (by unfold pgSize at *; omega)]
    simp only [hlt.ne, hlt, hlt.not_gt, false_and, true_and, false_or, or_false]
  · rw [if_pos heq]
    refine (sound_some_true hbrk).trans ?_
    simp only [heq, true_and, lt_irrefl, false_and, or_false]
  · rw [if_neg hlt.ne', if_neg hlt.not_gt, h.shrink_sound hbrk hlt hsrc]
    simp only [hlt.ne', hlt, hlt.not_gt, false_and, true_and, false_or]

/-- Two pages in the kernel pool, the first of which is the page directory, and four in the user
pool. -/
def sampleAlloc : Palloc where
  kernelPool := { usedMap := ⟨2, fun _ => 1#32⟩, mapAddr := 0xc0100000, base := 0xc0101000 }
  userPool := { usedMap := ⟨4, fun _ => 0#32⟩, mapAddr := 0xc0103000, base := 0xc0104000 }
  mem := fun _ => 0

def sampleProcess : Process where
  pagedir := 0xc0101000
  heapStart := 0x8050000
  brk := 0x8050000

def sampleGlobals : Globals where
  initPageDir := 0xc0100000
  initRamPages := 0x108

theorem sampleAlloc_layout : sampleAlloc.Layout where
  ok
    | false => ⟨by decide, by decide, by decide, by decide⟩
    | true => ⟨by decide, by decide, by decide, by decide⟩
  order := by decide

theorem sampleAlloc_space :
    Space sampleGlobals sampleAlloc sampleProcess.pagedir (fun _ => none) (fun _ => none) where
  layout := sampleAlloc_layout
  ram := by decide
  dir := by decide
  maps := ⟨by decide, nofun, nofun, fun _ _ => Mem.word_eq_zero fun _ _ _ => rfl, nofun, nofun⟩
  held a ha := by
    rcases ha with rfl | ⟨i, hi⟩
    · exact ⟨0, by decide, rfl, by decide⟩
    · cases hi
  frames := nofun

/-- The break is raised by a byte. -/
theorem sbrkSound_iff_sample :
    SbrkOk sampleProcess 1#32 sampleAlloc ∧
      SbrkSound sampleProcess 1#32 sampleAlloc
        (syscallSbrk sampleGlobals sampleProcess 1#32 sampleAlloc) := by
  have hok : SbrkOk sampleProcess 1#32 sampleAlloc := by
    refine .inr (.inl ⟨by decide, .inr (.inr ⟨fun j hj => ⟨?_, ?_⟩, by decide, by decide⟩)⟩)
    · obtain rfl : j = 0 := by
        change j < 1 at hj
        omega
      decide
    · exact sampleAlloc_space.frameOf_eq _
  exact ⟨hok, (sbrkSound_iff sampleAlloc_space (by decide) 1#32).mpr hok⟩

/-- With the break at the start of the heap, `sbrk (-1)` succeeds and puts it below. -/
theorem not_sbrkSound :
    Space sampleGlobals sampleAlloc sampleProcess.pagedir (fun _ => none) (fun _ => none) ∧
    syscallSbrk sampleGlobals sampleProcess (-1#32) sampleAlloc =
      some (0x8050000, { sampleProcess with brk := 0x804ffff }, sampleAlloc) ∧
    ¬ SbrkSound sampleProcess (-1#32) sampleAlloc
      (syscallSbrk sampleGlobals sampleProcess (-1#32) sampleAlloc) := by
  have hfit : fitBrkPg sampleGlobals sampleProcess.pagedir sampleProcess.brk
    (sampleProcess.trgBrk (-1#32)) sampleAlloc = some (true, sampleAlloc) := if_pos (by decide)
  have hcall : syscallSbrk sampleGlobals sampleProcess (-1#32) sampleAlloc =
      some (0x8050000, { sampleProcess with brk := 0x804ffff }, sampleAlloc) := by
    rw [syscallSbrk, if_neg (by decide), hfit]
    rfl
  refine ⟨sampleAlloc_space, hcall, ?_⟩
  rw [hcall]
  rintro (⟨-, -, hle, -⟩ | ⟨hresult, -⟩)
  · exact absurd hle (by decide)
  · exact absurd hresult (by decide)

end Call

end CS162.Memory
