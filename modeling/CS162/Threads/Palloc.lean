import CS162.Filesys.Bitmap
import CS162.Lib.Cover
import CS162.Lib.Mem
import CS162.Threads.Vaddr

/-!
# The page allocator

`threads/palloc.c` over the bitmaps of the two pools and the bytes of memory.  A failed
assertion and a panic have no result.  The runs of pages that have been handed out and not
given back, the grants, are kept beside the pools; `Exclusive` says that they are apart,
inside their pools, and what the bitmaps have marked.
-/

namespace CS162.Threads

open Filesys Option Bitmap

structure Pool where
  usedMap : Bitmap
  mapAddr : ℕ
  base : ℕ

def Pool.limit (p : Pool) : ℕ :=
  p.base + pgSize * p.usedMap.bitCnt

def Pool.Has (p : Pool) (a : ℕ) : Prop :=
  p.base ≤ a ∧ a < p.limit

def Pool.MapHas (p : Pool) (a : ℕ) : Prop :=
  p.mapAddr ≤ a ∧ a < p.mapAddr + bufSize p.usedMap.bitCnt

structure Palloc where
  kernelPool : Pool
  userPool : Pool
  mem : Mem

structure Flags where
  assert : Bool := false
  zero : Bool := false
  user : Bool := false
  deriving DecidableEq, Repr

/-- `init_pool`, in memory full of `garbage`. -/
def initPool (garbage : ℕ → BitVec 32) (base pageCnt : ℕ) : Option Pool :=
  let bmPages := (bufSize pageCnt + pgSize - 1) / pgSize
  if pageCnt < bmPages then
    none
  else
    (createInBuf garbage (pageCnt - bmPages) (bmPages * pgSize)).map fun usedMap =>
      { usedMap, mapAddr := base, base := base + bmPages * pgSize }

def pallocInit (garbage : ℕ → BitVec 32) (mem : Mem) (initRamPages userPageLimit : ℕ) :
    Option Palloc := do
  let freeStart ← ptov (1024 * 1024)
  let freeEnd ← ptov (initRamPages * pgSize)
  let freePages := (freeEnd - freeStart) / pgSize
  let userPages := if userPageLimit < freePages / 2 then userPageLimit else freePages / 2
  let kernelPages := freePages - userPages
  let kernelPool ← initPool garbage freeStart kernelPages
  let userPool ← initPool garbage (freeStart + kernelPages * pgSize) userPages
  return { kernelPool, userPool, mem }

def pageFromPool (pool : Pool) (page : ℕ) : Bool :=
  pgNo pool.base ≤ pgNo page ∧ pgNo page < pgNo pool.base + pool.usedMap.bitCnt

namespace Palloc

def pool (s : Palloc) (user : Bool) : Pool :=
  if user then s.userPool else s.kernelPool

def setMap (s : Palloc) (user : Bool) (usedMap : Bitmap) : Palloc :=
  if user then { s with userPool.usedMap := usedMap }
  else { s with kernelPool.usedMap := usedMap }

def getMultiple (flags : Flags) (pageCnt : ℕ) (s : Palloc) : Option (Option ℕ × Palloc) :=
  if pageCnt = 0 then
    some (none, s)
  else
    ((s.pool flags.user).usedMap.scanAndFlip 0 pageCnt false).bind fun
      | (none, _) => if flags.assert then none else some (none, s)
      | (some idx, usedMap) =>
        let pages := (s.pool flags.user).base + pgSize * idx
        let s := s.setMap flags.user usedMap
        some (some pages,
          if flags.zero then { s with mem := s.mem.memset pages 0 (pgSize * pageCnt) } else s)

def getPage (flags : Flags) : Palloc → Option (Option ℕ × Palloc) :=
  getMultiple flags 1

/-- The pool that `palloc_free_multiple` finds for a page. -/
def findPool (s : Palloc) (pages : ℕ) : Option Bool :=
  if pageFromPool s.kernelPool pages then some false
  else if pageFromPool s.userPool pages then some true
  else none

def freeMultiple (pages pageCnt : ℕ) (s : Palloc) : Option Palloc :=
  if pgOfs pages = 0 then
    if pages = 0 ∨ pageCnt = 0 then
      some s
    else
      (s.findPool pages).bind fun user =>
        let pageIdx := pgNo pages - pgNo (s.pool user).base
        let s := { s with mem := s.mem.memset pages 0xcc (pgSize * pageCnt) }
        ((s.pool user).usedMap.all pageIdx pageCnt).bind fun all =>
          if all then
            ((s.pool user).usedMap.setMultiple pageIdx pageCnt false).map (s.setMap user)
          else
            none
  else
    none

def freePage (page : ℕ) : Palloc → Option Palloc :=
  freeMultiple page 1

end Palloc

theorem ptov_eq_some {paddr a : ℕ} (h : ptov paddr = some a) :
    paddr < loaderPhysBase ∧ a = (paddr + loaderPhysBase) % 2 ^ 32 := by
  obtain ⟨hlt, ha⟩ := ite_none_right_eq_some.mp h
  exact ⟨hlt, (some.inj ha).symm⟩

/-- The bitmap is in front of the pages. -/
structure Pool.Ok (p : Pool) : Prop where
  aligned : p.base % pgSize = 0
  kernel : loaderPhysBase < p.mapAddr
  map : p.mapAddr + bufSize p.usedMap.bitCnt ≤ p.base
  limit_le : p.limit ≤ 2 ^ 32

/-- The user pool is behind the kernel pool. -/
structure Palloc.Layout (s : Palloc) : Prop where
  ok : ∀ user, (s.pool user).Ok
  order : s.kernelPool.limit ≤ s.userPool.mapAddr

variable {p : Pool} {garbage : ℕ → BitVec 32}

theorem Pool.Ok.bitCnt_lt (h : p.Ok) : p.usedMap.bitCnt < 2 ^ 32 := by
  have := h.limit_le
  unfold Pool.limit pgSize at this
  omega

theorem initPool_ok {base pageCnt : ℕ} (h : initPool garbage base pageCnt = some p)
    (haligned : base % pgSize = 0) (hkernel : loaderPhysBase < base)
    (hend : base + pgSize * pageCnt ≤ 2 ^ 32) :
    p.Ok ∧ p.mapAddr = base ∧ p.limit = base + pgSize * pageCnt ∧
      ∀ i, i < p.usedMap.bitCnt → p.usedMap.bit i = false := by
  obtain ⟨hpages, h⟩ := ite_none_left_eq_some.mp h
  obtain ⟨b, hb, rfl⟩ := map_eq_some_iff.mp h
  obtain ⟨hbuf, hall⟩ := ite_none_right_eq_some.mp hb
  generalize hbm : (bufSize pageCnt + pgSize - 1) / pgSize = bmPages at *
  obtain ⟨b', hb', hcnt, hbit⟩ := setAll_eq
    (b := ⟨pageCnt - bmPages, garbage⟩) (by unfold pgSize at hend; dsimp only; omega) false
  obtain rfl : b' = b := some.inj (hb'.symm.trans hall)
  dsimp only at hcnt
  refine ⟨⟨?_, hkernel, ?_, ?_⟩, rfl, ?_, fun i hi => hbit i (hcnt ▸ hi)⟩
  · unfold pgSize at haligned ⊢
    dsimp only
    omega
  · dsimp only
    rw [hcnt]
    omega
  · unfold Pool.limit pgSize at *
    dsimp only
    omega
  · unfold Pool.limit pgSize at *
    dsimp only
    omega

theorem pallocInit_layout {mem : Mem} {initRamPages userPageLimit : ℕ} {s : Palloc}
    (h : pallocInit garbage mem initRamPages userPageLimit = some s) (hram : 256 ≤ initRamPages)
    (hlt : initRamPages < 2 ^ 18) :
    s.Layout ∧ ∀ user i, i < (s.pool user).usedMap.bitCnt →
      (s.pool user).usedMap.bit i = false := by
  unfold pallocInit at h
  simp only [bind_eq_bind, bind_eq_some_iff, pure_def, some.injEq] at h
  obtain ⟨freeStart, hstart, freeEnd, hend, kernelPool, hk, userPool, hu, rfl⟩ := h
  replace hstart := ptov_eq_some hstart
  replace hend := ptov_eq_some hend
  unfold loaderPhysBase at hstart hend
  unfold pgSize at hend
  have hfree : (freeEnd - freeStart) / pgSize = initRamPages - 256 := by
    unfold pgSize
    omega
  rw [hfree] at hk hu
  generalize hpages : (if userPageLimit < (initRamPages - 256) / 2 then userPageLimit
    else (initRamPages - 256) / 2) = userPages at hk hu
  have hle : userPages ≤ initRamPages - 256 := by
    rw [← hpages]
    split_ifs <;> omega
  obtain ⟨hkok, hkmap, hklimit, hkbit⟩ := initPool_ok hk (by unfold pgSize; omega)
    (by unfold loaderPhysBase; omega) (by unfold pgSize; omega)
  obtain ⟨huok, humap, hulimit, hubit⟩ := initPool_ok hu (by unfold pgSize; omega)
    (by unfold loaderPhysBase; omega) (by unfold pgSize; omega)
  refine ⟨⟨?_, ?_⟩, ?_⟩
  · rintro (_ | _)
    · exact hkok
    · exact huok
  · rw [hklimit, humap]
    unfold pgSize
    omega
  · rintro (_ | _)
    · exact hkbit
    · exact hubit

/-- The byte is in a page of the pool that is marked. -/
def Pool.Marked (p : Pool) (a : ℕ) : Prop :=
  p.base ≤ a ∧ a < p.limit ∧ p.usedMap.bit ((a - p.base) / pgSize) = true

/-- The byte is in one of `cnt` pages from the page `idx` of the pool on. -/
def Pool.InRun (p : Pool) (idx cnt a : ℕ) : Prop :=
  p.base + pgSize * idx ≤ a ∧ a < p.base + pgSize * idx + pgSize * cnt

theorem Pool.marked_set {b : Bitmap} {idx cnt : ℕ} {value : Bool}
    (hcnt : b.bitCnt = p.usedMap.bitCnt) (hin : idx + cnt ≤ p.usedMap.bitCnt)
    (hbit : b.bit = bitmapSetMultiple p.usedMap.bit idx cnt value) (a : ℕ) :
    ({ p with usedMap := b } : Pool).Marked a ↔
      p.InRun idx cnt a ∧ value = true ∨ ¬ p.InRun idx cnt a ∧ p.Marked a := by
  unfold Pool.Marked Pool.InRun Pool.limit pgSize
  rw [hcnt, hbit, bitmapSetMultiple]
  by_cases hrun : p.base + 4096 * idx ≤ a ∧ a < p.base + 4096 * idx + 4096 * cnt
  · simp only [hrun, and_self, true_and, not_true_eq_false, false_and, or_false]
    rw [if_pos (by omega)]
    exact ⟨fun h => h.2.2, fun h => ⟨by omega, by omega, h⟩⟩
  · simp only [hrun, false_and, not_false_eq_true, true_and, false_or]
    refine and_congr_right fun hbase => and_congr_right fun hlimit => ?_
    rw [if_neg (by omega)]

namespace Palloc

variable {s : Palloc} {flags : Flags} {cnt idx : ℕ} {user user' : Bool} {b : Bitmap} {a : ℕ}

@[simp] theorem pool_setMap_self (s : Palloc) (user : Bool) (b : Bitmap) :
    (s.setMap user b).pool user = { s.pool user with usedMap := b } := by
  cases user <;> rfl

theorem pool_setMap_of_ne (s : Palloc) (b : Bitmap) (h : user' ≠ user) :
    (s.setMap user b).pool user' = s.pool user' := by
  cases user <;> cases user' <;> first | rfl | exact absurd rfl h

theorem Layout.setMap (h : s.Layout) (hcnt : b.bitCnt = (s.pool user).usedMap.bitCnt) :
    (s.setMap user b).Layout := by
  have hlimit : ({ s.pool user with usedMap := b } : Pool).limit = (s.pool user).limit := by
    unfold Pool.limit
    rw [hcnt]
  constructor
  · intro user'
    by_cases huser : user' = user
    · subst huser
      rw [pool_setMap_self]
      have hok := h.ok user'
      refine ⟨hok.aligned, hok.kernel, ?_, hlimit.trans_le hok.limit_le⟩
      rw [hcnt]
      exact hok.map
    · rw [pool_setMap_of_ne s b huser]
      exact h.ok user'
  · cases user
    · exact hlimit.trans_le h.order
    · exact h.order

theorem Layout.apart (h : s.Layout) (hbase : (s.pool user).base ≤ a)
    (hlimit : a < (s.pool user).limit) (hbase' : (s.pool user').base ≤ a)
    (hlimit' : a < (s.pool user').limit) : user = user' := by
  have horder := h.order
  have hmap : s.userPool.mapAddr + _ ≤ s.userPool.base := (h.ok true).map
  cases user <;> cases user'
  · rfl
  · change a < s.kernelPool.limit at hlimit
    change s.userPool.base ≤ a at hbase'
    omega
  · change s.userPool.base ≤ a at hbase
    change a < s.kernelPool.limit at hlimit'
    omega
  · rfl

theorem Layout.not_mapHas (h : s.Layout) (hhas : (s.pool user).Has a) :
    ¬ (s.pool user').MapHas a := by
  rintro ⟨hmap, hmap'⟩
  obtain ⟨hbase, hlimit⟩ := hhas
  have hk : s.kernelPool.mapAddr + bufSize s.kernelPool.usedMap.bitCnt ≤
    s.kernelPool.base := (h.ok false).map
  have hu : s.userPool.mapAddr + bufSize s.userPool.usedMap.bitCnt ≤
    s.userPool.base := (h.ok true).map
  have horder := h.order
  have hle : s.kernelPool.base ≤ s.kernelPool.limit := Nat.le_add_right _ _
  cases user <;> cases user' <;> simp only [pool, Bool.false_eq_true, if_true, if_false] at * <;>
    omega

theorem getMultiple_zero (s : Palloc) (flags : Flags) : s.getMultiple flags 0 = some (none, s) :=
  if_pos rfl

theorem getMultiple_none (h : s.Layout) (hcnt : cnt ≠ 0)
    (hscan : bitmapScan (s.pool flags.user).usedMap.bit (s.pool flags.user).usedMap.bitCnt cnt =
      none) :
    s.getMultiple flags cnt = if flags.assert then none else some (none, s) := by
  rw [getMultiple, if_neg hcnt, scanAndFlip_none (h.ok _).bitCnt_lt hscan]
  rfl

theorem getMultiple_some (h : s.Layout) (hcnt : cnt ≠ 0)
    (hscan : bitmapScan (s.pool flags.user).usedMap.bit (s.pool flags.user).usedMap.bitCnt cnt =
      some idx) :
    ∃ b : Bitmap, b.bitCnt = (s.pool flags.user).usedMap.bitCnt ∧
      b.bit = bitmapSetMultiple (s.pool flags.user).usedMap.bit idx cnt true ∧
      s.getMultiple flags cnt = some (some ((s.pool flags.user).base + pgSize * idx),
        { s.setMap flags.user b with
          mem := if flags.zero then
              s.mem.memset ((s.pool flags.user).base + pgSize * idx) 0 (pgSize * cnt)
            else s.mem }) := by
  obtain ⟨b, hb, hbcnt, hbit⟩ := scanAndFlip_some (h.ok _).bitCnt_lt hscan
  refine ⟨b, hbcnt, hbit, ?_⟩
  rw [getMultiple, if_neg hcnt, hb, bind_some]
  obtain ⟨assert, zero, user⟩ := flags
  cases zero <;> cases user <;> rfl

theorem findPool_eq (h : s.Layout) (hidx : idx < (s.pool user).usedMap.bitCnt) :
    s.findPool ((s.pool user).base + pgSize * idx) = some user ∧
      pgNo ((s.pool user).base + pgSize * idx) - pgNo (s.pool user).base = idx := by
  have hin : pageFromPool (s.pool user) ((s.pool user).base + pgSize * idx) = true := by
    unfold pageFromPool pgNo
    unfold pgSize at *
    rw [decide_eq_true_iff]
    omega
  refine ⟨?_, ?_⟩
  · cases user with
    | false => exact if_pos hin
    | true =>
      have hout : pageFromPool s.kernelPool (s.userPool.base + pgSize * idx) = false := by
        have hmap : s.userPool.mapAddr + _ ≤ s.userPool.base := (h.ok true).map
        have horder := h.order
        unfold pageFromPool pgNo
        unfold Pool.limit pgSize at *
        rw [decide_eq_false_iff_not]
        omega
      change (if pageFromPool s.kernelPool (s.userPool.base + pgSize * idx) = true then _
        else _) = _
      rw [hout, if_neg Bool.false_ne_true]
      exact if_pos hin
  · unfold pgNo pgSize at *
    omega

theorem freeMultiple_eq (h : s.Layout) (hcnt : cnt ≠ 0)
    (hin : idx + cnt ≤ (s.pool user).usedMap.bitCnt) :
    s.freeMultiple ((s.pool user).base + pgSize * idx) cnt =
      if (List.range cnt).all fun i => (s.pool user).usedMap.bit (idx + i) then
        ((s.pool user).usedMap.setMultiple idx cnt false).map fun b =>
          { s.setMap user b with
            mem := s.mem.memset ((s.pool user).base + pgSize * idx) 0xcc (pgSize * cnt) }
      else
        none := by
  have hok := h.ok user
  have hofs : pgOfs ((s.pool user).base + pgSize * idx) = 0 := by
    have := hok.aligned
    unfold pgOfs
    unfold pgSize at *
    omega
  have hpos : ¬ ((s.pool user).base + pgSize * idx = 0 ∨ cnt = 0) := by
    have := hok.kernel
    have := hok.map
    omega
  obtain ⟨hpool, hidx⟩ := @findPool_eq s idx user h (by omega)
  rw [freeMultiple, if_pos hofs, if_neg hpos, hpool, bind_some, hidx]
  change ((s.pool user).usedMap.all idx cnt).bind _ = _
  rw [all_eq hin hok.bitCnt_lt, bind_some]
  refine if_congr Iff.rfl ?_ rfl
  cases user <;> rfl

theorem freeMultiple_outside (h : s.Layout) (hidx : idx < (s.pool user).usedMap.bitCnt)
    (hlt : cnt < 2 ^ 31) (hout : (s.pool user).usedMap.bitCnt < idx + cnt) :
    s.freeMultiple ((s.pool user).base + pgSize * idx) cnt = none := by
  have hok := h.ok user
  have hofs : pgOfs ((s.pool user).base + pgSize * idx) = 0 := by
    have := hok.aligned
    unfold pgOfs
    unfold pgSize at *
    omega
  have hpos : ¬ ((s.pool user).base + pgSize * idx = 0 ∨ cnt = 0) := by
    have := hok.kernel
    have := hok.map
    omega
  have hgroup : ¬ (s.pool user).usedMap.GroupOk idx cnt := by
    rintro ⟨-, hle⟩
    have := hok.limit_le
    unfold Pool.limit pgSize at this
    omega
  obtain ⟨hpool, hno⟩ := findPool_eq h hidx
  rw [freeMultiple, if_pos hofs, if_neg hpos, hpool, bind_some, hno]
  change ((s.pool user).usedMap.all idx cnt).bind _ = _
  rw [all, contains, if_neg hgroup]
  rfl

theorem freeMultiple_some (h : s.Layout) (hcnt : cnt ≠ 0)
    (hin : idx + cnt ≤ (s.pool user).usedMap.bitCnt)
    (hmarked : ∀ i, i < cnt → (s.pool user).usedMap.bit (idx + i) = true) :
    ∃ b : Bitmap, b.bitCnt = (s.pool user).usedMap.bitCnt ∧
      b.bit = bitmapSetMultiple (s.pool user).usedMap.bit idx cnt false ∧
      s.freeMultiple ((s.pool user).base + pgSize * idx) cnt = some { s.setMap user b with
        mem := s.mem.memset ((s.pool user).base + pgSize * idx) 0xcc (pgSize * cnt) } := by
  obtain ⟨b, hb, hbcnt, hbit⟩ := setMultiple_eq hin (h.ok user).bitCnt_lt false
  refine ⟨b, hbcnt, hbit, ?_⟩
  have hall : (List.range cnt).all (fun i => (s.pool user).usedMap.bit (idx + i)) = true :=
    List.all_eq_true.mpr fun i hi => hmarked i (List.mem_range.mp hi)
  rw [freeMultiple_eq h hcnt hin, if_pos hall, hb]
  rfl

end Palloc

/-- Pages that have been handed out. -/
structure Grant where
  user : Bool
  pages : ℕ
  cnt : ℕ
  deriving DecidableEq, Repr

def Grant.Has (r : Grant) (a : ℕ) : Prop :=
  r.pages ≤ a ∧ a < r.pages + pgSize * r.cnt

instance (r : Grant) (a : ℕ) : Decidable (r.Has a) :=
  inferInstanceAs (Decidable (_ ∧ _))

/-- The grant is a run of pages of the pool. -/
def Grant.In (r : Grant) (p : Pool) : Prop :=
  1 ≤ r.cnt ∧ ∃ idx, r.pages = p.base + pgSize * idx ∧ idx + r.cnt ≤ p.usedMap.bitCnt

namespace Palloc

inductive Call where
  | get (flags : Flags) (pageCnt : ℕ)
  | free (r : Grant)
  deriving DecidableEq, Repr

abbrev State : Type :=
  Palloc × List Grant

/-- What is freed has been handed out. -/
def Call.Legal (grants : List Grant) : Call → Prop
  | .get _ _ => True
  | .free r => r ∈ grants

instance (grants : List Grant) : ∀ c : Call, Decidable (c.Legal grants)
  | .get _ _ => inferInstanceAs (Decidable True)
  | .free r => inferInstanceAs (Decidable (r ∈ grants))

def Call.exec (s : State) : Call → Option State
  | .get flags pageCnt => (s.1.getMultiple flags pageCnt).map fun
      | (none, p) => (p, s.2)
      | (some pages, p) => (p, ⟨flags.user, pages, pageCnt⟩ :: s.2)
  | .free r => (s.1.freeMultiple r.pages r.cnt).map fun p => (p, s.2.erase r)

def step (s : State) (c : Call) : Option State :=
  if c.Legal s.2 then c.exec s else none

/-- The grants are apart, inside the pools they come from, and what is marked. -/
structure Exclusive (s : State) : Prop where
  layout : s.1.Layout
  inside : ∀ r ∈ s.2, r.In (s.1.pool r.user)
  covers : Covers Grant.Has (fun a => ∃ user, (s.1.pool user).Marked a) s.2

variable {s p : Palloc} {t : State} {r : Grant} {flags : Flags} {cnt idx : ℕ} {user : Bool}
  {b : Bitmap} {mem : Mem}

theorem Layout.marked_setMap {value : Bool} (h : s.Layout)
    (hin : idx + cnt ≤ (s.pool user).usedMap.bitCnt)
    (hcnt : b.bitCnt = (s.pool user).usedMap.bitCnt)
    (hbit : b.bit = bitmapSetMultiple (s.pool user).usedMap.bit idx cnt value) (a : ℕ) :
    (∃ user', (({ s.setMap user b with mem } : Palloc).pool user').Marked a) ↔
      (s.pool user).InRun idx cnt a ∧ value = true ∨
        ¬ (s.pool user).InRun idx cnt a ∧ ∃ user', (s.pool user').Marked a := by
  have hself := Pool.marked_set hcnt hin hbit a
  rw [← pool_setMap_self] at hself
  -- a byte of the other pool is not in the run
  have hother : ∀ user', user' ≠ user → (s.pool user').Marked a →
      ¬ (s.pool user).InRun idx cnt a := fun user' hne hm hrun => by
    refine hne (h.apart hm.1 hm.2.1 ?_ ?_)
    · exact (Nat.le_add_right _ _).trans hrun.1
    · have := hrun.2
      unfold Pool.limit pgSize at *
      omega
  constructor
  · rintro ⟨user', hm⟩
    change ((s.setMap user b).pool user').Marked a at hm
    by_cases huser : user' = user
    · subst huser
      rcases hself.mp hm with hrun | ⟨hrun, hm⟩
      · exact .inl hrun
      · exact .inr ⟨hrun, user', hm⟩
    · rw [pool_setMap_of_ne s b huser] at hm
      exact .inr ⟨hother user' huser hm, user', hm⟩
  · rintro (hrun | ⟨hrun, user', hm⟩)
    · exact ⟨user, hself.mpr (.inl hrun)⟩
    · by_cases huser : user' = user
      · subst huser
        exact ⟨user', hself.mpr (.inr ⟨hrun, hm⟩)⟩
      · refine ⟨user', ?_⟩
        change ((s.setMap user b).pool user').Marked a
        rw [pool_setMap_of_ne s b huser]
        exact hm

theorem in_setMap (hr : r.In (s.pool r.user)) (hcnt : b.bitCnt = (s.pool user).usedMap.bitCnt) :
    r.In ((s.setMap user b).pool r.user) := by
  by_cases huser : r.user = user
  · obtain ⟨hpos, idx, hpages, hin⟩ := hr
    rw [huser, pool_setMap_self]
    rw [huser] at hpages hin
    exact ⟨hpos, idx, hpages, by rw [← hcnt] at hin; exact hin⟩
  · rw [pool_setMap_of_ne s b huser]
    exact hr

theorem Exclusive.get (h : Exclusive t) (hcnt : cnt ≠ 0)
    (hscan : bitmapScan (t.1.pool user).usedMap.bit (t.1.pool user).usedMap.bitCnt cnt = some idx)
    (hbcnt : b.bitCnt = (t.1.pool user).usedMap.bitCnt)
    (hbit : b.bit = bitmapSetMultiple (t.1.pool user).usedMap.bit idx cnt true) :
    Exclusive ({ t.1.setMap user b with mem },
      ⟨user, (t.1.pool user).base + pgSize * idx, cnt⟩ :: t.2) := by
  obtain ⟨hin, hclear⟩ := bitmapScan_some hscan
  refine ⟨⟨(h.layout.setMap hbcnt).ok, (h.layout.setMap hbcnt).order⟩, ?_, ?_⟩
  · intro r hr
    rcases List.mem_cons.mp hr with rfl | hr
    · exact in_setMap ⟨Nat.one_le_iff_ne_zero.mpr hcnt, idx, rfl, hin⟩ hbcnt
    · exact in_setMap (h.inside r hr) hbcnt
  · refine h.covers.cons (fun a hrun hm => ?_) fun a => ?_
    · obtain ⟨user', hm⟩ := hm
      obtain rfl : user' = user := by
        have := hrun.1
        have := hrun.2
        refine h.layout.apart hm.1 hm.2.1 ?_ ?_ <;>
          (unfold Pool.limit pgSize at *; dsimp only at *; omega)
      have := hclear ((a - (t.1.pool user').base) / pgSize)
        (by have := hrun.1; unfold pgSize at *; dsimp only at *; omega)
        (by have := hrun.2; unfold pgSize at *; dsimp only at *; omega)
      rw [hm.2.2] at this
      cases this
    · rw [h.layout.marked_setMap hin hbcnt hbit a]
      have hrun : Grant.Has ⟨user, (t.1.pool user).base + pgSize * idx, cnt⟩ a ↔
        (t.1.pool user).InRun idx cnt a := Iff.rfl
      rw [hrun]
      tauto

theorem Exclusive.marked (h : Exclusive t) (hr : r ∈ t.2)
    (hpages : r.pages = (t.1.pool r.user).base + pgSize * idx)
    (hin : idx + r.cnt ≤ (t.1.pool r.user).usedMap.bitCnt) {i : ℕ} (hi : i < r.cnt) :
    (t.1.pool r.user).usedMap.bit (idx + i) = true := by
  have hhas : r.Has ((t.1.pool r.user).base + pgSize * (idx + i)) := by
    unfold Grant.Has
    rw [hpages]
    unfold pgSize
    omega
  obtain ⟨user', hm⟩ := (h.covers.marked_iff _).mpr ⟨r, hr, hhas⟩
  obtain rfl : user' = r.user := by
    refine h.layout.apart hm.1 hm.2.1 (Nat.le_add_right _ _) ?_
    unfold Pool.limit pgSize
    omega
  have hbit := hm.2.2
  rwa [Nat.add_sub_cancel_left, Nat.mul_div_cancel_left _ (by decide : 0 < pgSize)] at hbit

theorem Exclusive.free (h : Exclusive t) (hr : r ∈ t.2) :
    ∃ p, t.1.freeMultiple r.pages r.cnt = some p ∧ Exclusive (p, t.2.erase r) ∧
      p.pool (!r.user) = t.1.pool (!r.user) ∧
      ∀ a, (p.pool r.user).Marked a ↔ (t.1.pool r.user).Marked a ∧ ¬ r.Has a := by
  obtain ⟨hpos, idx, hpages, hin⟩ := h.inside r hr
  obtain ⟨b, hbcnt, hbit, hfree⟩ := freeMultiple_some h.layout (Nat.one_le_iff_ne_zero.mp hpos) hin
    fun i hi => h.marked hr hpages hin hi
  rw [← hpages] at hfree
  have hrun : ∀ a, r.Has a ↔ (t.1.pool r.user).InRun idx r.cnt a := fun a => by
    unfold Grant.Has Pool.InRun
    rw [hpages]
  refine ⟨_, hfree, ⟨⟨(h.layout.setMap hbcnt).ok, (h.layout.setMap hbcnt).order⟩, ?_, ?_⟩, ?_, ?_⟩
  · intro r' hr'
    exact in_setMap (h.inside r' (List.mem_of_mem_erase hr')) hbcnt
  · refine h.covers.erase hr fun a => ?_
    rw [h.layout.marked_setMap hin hbcnt hbit a, hrun a]
    simp only [Bool.false_eq_true, and_false, false_or]
    exact and_comm
  · exact pool_setMap_of_ne t.1 b (by cases r.user <;> decide)
  · intro a
    change ((t.1.setMap r.user b).pool r.user).Marked a ↔ _
    rw [pool_setMap_self, Pool.marked_set hbcnt hin hbit a, hrun a]
    simp only [Bool.false_eq_true, and_false, false_or]
    exact and_comm

theorem Exclusive.has (h : Exclusive t) (hr : r ∈ t.2) {a : ℕ} (ha : r.Has a) :
    (t.1.pool r.user).Has a ∧ ¬ (t.1.pool !r.user).Has a ∧ ∀ user, ¬ (t.1.pool user).MapHas a := by
  obtain ⟨-, idx, hpages, hin⟩ := h.inside r hr
  have hhas : (t.1.pool r.user).Has a := by
    unfold Grant.Has at ha
    unfold Pool.Has Pool.limit
    unfold pgSize at *
    omega
  refine ⟨hhas, fun hother => ?_, fun user hmap => ?_⟩
  · have := h.layout.apart hhas.1 hhas.2 hother.1 hother.2
    cases hu : r.user <;> rw [hu] at this <;> cases this
  · exact h.layout.not_mapHas hhas hmap

theorem Exclusive.meets (h : Exclusive t)
    (hscan : bitmapScan (t.1.pool user).usedMap.bit (t.1.pool user).usedMap.bitCnt cnt = none)
    (hidx : idx + cnt ≤ (t.1.pool user).usedMap.bitCnt) :
    ∃ r ∈ t.2, ∃ a, r.Has a ∧ (t.1.pool user).InRun idx cnt a := by
  obtain ⟨i, hi, hi', hbit⟩ := bitmapScan_none hscan hidx
  have hmarked : (t.1.pool user).Marked ((t.1.pool user).base + pgSize * i) := by
    refine ⟨Nat.le_add_right _ _, ?_, ?_⟩
    · unfold Pool.limit pgSize
      omega
    · rwa [Nat.add_sub_cancel_left, Nat.mul_div_cancel_left _ (by decide : 0 < pgSize)]
  obtain ⟨r, hr, ha⟩ := (h.covers.marked_iff _).mp ⟨user, hmarked⟩
  refine ⟨r, hr, _, ha, ?_⟩
  unfold Pool.InRun pgSize
  omega

theorem Layout.getMultiple_total (h : s.Layout) (cnt : ℕ) (hflags : flags.assert = false) :
    ∃ r, s.getMultiple flags cnt = some r := by
  by_cases hcnt : cnt = 0
  · rw [hcnt, getMultiple_zero]
    exact ⟨_, rfl⟩
  · cases hscan : bitmapScan (s.pool flags.user).usedMap.bit
        (s.pool flags.user).usedMap.bitCnt cnt with
    | none =>
      rw [getMultiple_none h hcnt hscan, hflags]
      exact ⟨_, rfl⟩
    | some idx =>
      obtain ⟨b, -, -, hsome⟩ := getMultiple_some h hcnt hscan
      exact ⟨_, hsome⟩

theorem step_exclusive {c : Call} {t' : State} (h : Exclusive t) (hs : step t c = some t') :
    Exclusive t' := by
  obtain ⟨hc, hexec⟩ := ite_none_right_eq_some.mp hs
  cases c with
  | get flags cnt =>
    obtain ⟨⟨o, p⟩, hget, rfl⟩ := map_eq_some_iff.mp hexec
    by_cases hcnt : cnt = 0
    · rw [hcnt, getMultiple_zero] at hget
      cases hget
      exact h
    · cases hscan : bitmapScan (t.1.pool flags.user).usedMap.bit
          (t.1.pool flags.user).usedMap.bitCnt cnt with
      | none =>
        rw [getMultiple_none h.layout hcnt hscan] at hget
        obtain ⟨-, hget⟩ := ite_none_left_eq_some.mp hget
        cases hget
        exact h
      | some idx =>
        obtain ⟨b, hbcnt, hbit, hsome⟩ := getMultiple_some h.layout hcnt hscan
        rw [hsome] at hget
        cases hget
        exact h.get hcnt hscan hbcnt hbit
  | free r =>
    obtain ⟨p, hfree, hp, -⟩ := h.free hc
    obtain ⟨p', hfree', rfl⟩ := map_eq_some_iff.mp hexec
    rw [hfree] at hfree'
    cases hfree'
    exact hp

theorem pallocInit_exclusive {garbage : ℕ → BitVec 32} {initRamPages userPageLimit : ℕ}
    (hram : 256 ≤ initRamPages) (hlt : initRamPages < 2 ^ 18)
    (h : pallocInit garbage mem initRamPages userPageLimit = some p) : Exclusive (p, []) := by
  obtain ⟨hlayout, hclear⟩ := pallocInit_layout h hram hlt
  refine ⟨hlayout, nofun, Covers.nil ?_⟩
  rintro a ⟨user, hbase, hlimit, hbit⟩
  change (p.pool user).base ≤ a at hbase
  change a < (p.pool user).limit at hlimit
  have hlt : (a - (p.pool user).base) / pgSize < (p.pool user).usedMap.bitCnt := by
    unfold Pool.limit pgSize at *
    omega
  rw [hclear user _ hlt] at hbit
  cases hbit

/-- After `palloc_init` and every sequence of calls the grants are apart, inside the pool they
were asked from, not in the other pool and not in a bitmap; a grant can be given back, to
its own pool; a request fails only when each run of that many pages of the pool meets a
grant; and no assertion fails. -/
theorem run_exclusive {garbage : ℕ → BitVec 32} {initRamPages userPageLimit : ℕ} {p₀ : Palloc}
    {calls : List Call} {grants : List Grant}
    (hram : 256 ≤ initRamPages) (hlt : initRamPages < 2 ^ 18)
    (h₀ : pallocInit garbage mem initRamPages userPageLimit = some p₀)
    (hr : Run.run step (p₀, []) calls = some (p, grants)) :
    grants.Pairwise (fun r r' => ∀ a, r.Has a → ¬ r'.Has a) ∧
    (∀ r ∈ grants, ∀ a, r.Has a → (p.pool r.user).Has a ∧ ¬ (p.pool !r.user).Has a ∧
      ∀ user, ¬ (p.pool user).MapHas a) ∧
    (∀ r ∈ grants, ∃ p', p.freeMultiple r.pages r.cnt = some p' ∧
      p'.pool (!r.user) = p.pool (!r.user) ∧
      ∀ a, (p'.pool r.user).Marked a ↔ (p.pool r.user).Marked a ∧ ¬ r.Has a) ∧
    (∀ flags n, 1 ≤ n → (∀ pages p', p.getMultiple flags n ≠ some (some pages, p')) →
      ∀ idx, idx + n ≤ (p.pool flags.user).usedMap.bitCnt →
        ∃ r ∈ grants, ∃ a, r.Has a ∧ (p.pool flags.user).InRun idx n a) ∧
    ∀ c : Call, c.Legal grants → (∀ flags n, c = .get flags n → flags.assert = false) →
      (step (p, grants) c).isSome := by
  have h : Exclusive (p, grants) := Run.run_invariant' (I := Exclusive)
    (fun _ _ _ => step_exclusive) (pallocInit_exclusive hram hlt h₀) hr
  refine ⟨h.covers.apart, fun r hr a ha => h.has hr ha, fun r hr => ?_, ?_, ?_⟩
  · obtain ⟨p', hfree, -, hother, hmarked⟩ := h.free hr
    exact ⟨p', hfree, hother, hmarked⟩
  · intro flags n hn hfail idx hidx
    have hn' : n ≠ 0 := Nat.one_le_iff_ne_zero.mp hn
    cases hscan : bitmapScan (p.pool flags.user).usedMap.bit
        (p.pool flags.user).usedMap.bitCnt n with
    | none => exact h.meets hscan hidx
    | some i =>
      obtain ⟨b, -, -, hsome⟩ := getMultiple_some h.layout hn' hscan
      exact absurd hsome (hfail _ _)
  · intro c hc hflags
    rw [step, if_pos hc]
    cases c with
    | get flags n =>
      rw [Call.exec, isSome_map]
      obtain ⟨r, hget⟩ := h.layout.getMultiple_total n (hflags flags n rfl)
      rw [hget]
      rfl
    | free r =>
      obtain ⟨p', hfree, -⟩ := h.free hc
      rw [Call.exec, hfree]
      rfl

/-- Six pages, four of them in the kernel pool, where a grant is given back and its place is
used again. -/
theorem run_exclusive_six :
    let calls : List Call := [.get {} 1, .get { zero := true } 2, .get { user := true } 1,
      .get { user := true } 1, .free ⟨false, 0xc0101000, 1⟩, .get {} 2, .get {} 1]
    ∃ p₀ p, pallocInit (fun _ => 0xffffffff) (fun _ => 0) 262 2 = some p₀ ∧
      Run.run step (p₀, []) calls = some (p, [⟨false, 0xc0101000, 1⟩, ⟨true, 0xc0105000, 1⟩,
        ⟨false, 0xc0102000, 2⟩]) ∧
      ∃ r ∈ [(⟨false, 0xc0101000, 1⟩ : Grant), ⟨true, 0xc0105000, 1⟩, ⟨false, 0xc0102000, 2⟩],
        ∃ a, r.Has a ∧ (p.pool true).InRun 0 1 a := by
  intro calls
  have hrun : ((pallocInit (fun _ => 0xffffffff) (fun _ => 0) 262 2).bind fun p₀ =>
      (Run.run step (p₀, []) calls).map fun t =>
        (t.2, (t.1.pool true).usedMap.bitCnt, (t.1.getMultiple { user := true } 1).map Prod.fst)) =
      some ([⟨false, 0xc0101000, 1⟩, ⟨true, 0xc0105000, 1⟩, ⟨false, 0xc0102000, 2⟩], 1,
        some none) := by decide +kernel
  obtain ⟨p₀, h0, hrun⟩ := bind_eq_some_iff.mp hrun
  obtain ⟨⟨p, grants⟩, hr, heq⟩ := map_eq_some_iff.mp hrun
  obtain ⟨rfl, hcnt, hget⟩ : grants = _ ∧ _ ∧ _ := by simpa only [Prod.mk.injEq] using heq
  obtain ⟨-, -, -, hfull, -⟩ := run_exclusive (by decide) (by decide) h0 hr
  refine ⟨p₀, p, h0, hr, hfull { user := true } 1 le_rfl (fun pages p' hsome => ?_) 0 ?_⟩
  · rw [hsome] at hget
    cases hget
  · exact hcnt.ge

end Palloc

end CS162.Threads
