import CS162.Filesys.CacheView

/-!
# The clock hand and the memory of the cache

`update_clock_idx` moves the hand by one slot at most, so that it can stop at a slot that was
used a moment ago.  `buffer_cache_find` allocates a structure for its key and nothing frees
it: every call leaves two or three of them behind.
-/

namespace CS162.Filesys.Cache

open List Option Function

variable {σ σ' : Cache} {sector size offset p m k : ℕ} {slot : Fin 64} {e : CacheSector}
  {op : Op}

/-- The slot that `update_clock_idx` selects was not used when some slot was not; when all
were, all bits are cleared and slot 0 is selected. -/
structure ClockOk (σ : Cache) : Prop where
  clear : (∃ i, σ.refbits i = false) →
    σ.updateClockIdx.refbits σ.updateClockIdx.clockIdx = false
  full : (∀ i, σ.refbits i = true) →
    (∀ i, σ.updateClockIdx.refbits i = false) ∧ σ.updateClockIdx.clockIdx = 0

theorem updateClockIdx_of_all (h : ∀ i, σ.refbits i = true) :
    σ.updateClockIdx = { σ with refbits := fun _ => false, clockIdx := 0 } :=
  if_pos (List.all_eq_true.mpr fun i _ => h i)

theorem updateClockIdx_of_clear {i : Fin 64} (h : σ.refbits i = false) :
    σ.updateClockIdx =
      if σ.refbits σ.clockIdx then { σ with clockIdx := σ.clockIdx + 1 } else σ := by
  refine if_neg fun hall => ?_
  rw [List.all_eq_true.mp hall i (mem_finRange i)] at h
  cases h

theorem clockOk_iff (σ : Cache) : ClockOk σ ↔ σ.refbits σ.clockIdx = false ∨
    σ.refbits (σ.clockIdx + 1) = false ∨ ∀ i, σ.refbits i = true := by
  by_cases hall : ∀ i, σ.refbits i = true
  · refine iff_of_true ⟨fun ⟨i, hi⟩ => ?_, fun _ => ?_⟩ (.inr (.inr hall))
    · rw [hall i] at hi
      cases hi
    · rw [updateClockIdx_of_all hall]
      exact ⟨fun _ => rfl, rfl⟩
  · obtain ⟨i, hi⟩ := not_forall.mp hall
    rw [Bool.not_eq_true] at hi
    have hupdate := updateClockIdx_of_clear hi
    have hiff : ClockOk σ ↔ σ.updateClockIdx.refbits σ.updateClockIdx.clockIdx = false :=
      ⟨fun h => h.clear ⟨i, hi⟩, fun h => ⟨fun _ => h, fun h' => absurd h' hall⟩⟩
    rw [hiff, hupdate]
    cases hhand : σ.refbits σ.clockIdx with
    | false => simp [hhand]
    | true => simp [hall]

/-- The reads of the sectors 0 to 64 fill the slots and take slot 0 for sector 64; then sector
1 is used again.  The next miss takes its slot. -/
theorem run_not_clockOk : ∃ σ, Run.run step (init 66 (fun _ _ => 0) fun _ _ => 0)
      ((List.range 65).map (fun s => .read s 1 0) ++ [.read 1 1 0]) = some σ ∧
    σ.bufferCacheFind 65 = none ∧ σ.refbits 2 = false ∧ ¬ ClockOk σ := by
  have hrun : ((Run.run step (init 66 (fun _ _ => 0) fun _ _ => 0)
      ((range 65).map (fun s => .read s 1 0) ++ [.read 1 1 0])).map fun σ =>
        decide (σ.bufferCacheFind 65 = none ∧ σ.refbits 2 = false ∧
          σ.updateClockIdx.refbits σ.updateClockIdx.clockIdx = true)) = some true := by
    decide +kernel
  obtain ⟨σ, hσ, hd⟩ := map_eq_some_iff.mp hrun
  obtain ⟨hfind, hclear, hset⟩ := of_decide_eq_true hd
  refine ⟨σ, hσ, hfind, hclear, fun hok => ?_⟩
  rw [hok.clear ⟨2, hclear⟩] at hset
  cases hset

def entries (σ : Cache) : ℕ :=
  (List.range σ.brk).countP fun p => (σ.heap p).isSome

/-- How many keys `buffer_cache_find` allocates in a call: it is called before and after the
slot lock is acquired, and once more when the sector is cached. -/
def keysOf (σ : Cache) : Op → ℕ
  | .read sector _ _ => if (σ.bufferCacheFind sector).isSome then 3 else 2
  | .write sector _ _ => if (σ.bufferCacheFind sector).isSome then 3 else 2
  | .flush => 0

structure Counted where
  cache : Cache
  keys : ℕ

namespace Counted

def step (u : Counted) (op : Op) : Option Counted :=
  (u.cache.step op).map fun σ => ⟨σ, u.keys + u.cache.keysOf op⟩

def blocks (u : Counted) : ℕ :=
  u.cache.entries + u.keys

end Counted

/-- The first `m` slots have been taken, one after the other. -/
structure Filling (σ : Cache) (m : ℕ) : Prop where
  bits : ∀ i : Fin 64, σ.refbits i = decide (i.val < m)
  slots : ∀ {i : Fin 64} {p}, σ.cacheSectors i = some p → i.val < m
  hand : σ.clockIdx.val = m - 1
  entries : σ.entries = m

theorem init_filling (n : ℕ) (disk : ℕ → Sector) (base : Fin 64 → Sector) :
    Filling (init n disk base) 0 :=
  ⟨fun _ => rfl, nofun, rfl, rfl⟩

theorem entries_congr (hbrk : σ'.brk = σ.brk)
    (h : ∀ q, (σ'.heap q).isSome = (σ.heap q).isSome) : σ'.entries = σ.entries := by
  rw [entries, entries, hbrk]
  exact countP_congr fun q _ => by rw [h q]

theorem entries_succ (hbrk : σ'.brk = σ.brk + 1) (hheap : σ'.heap = update σ.heap σ.brk (some e)) :
    σ'.entries = σ.entries + 1 := by
  rw [entries, entries, hbrk, range_succ, countP_append, hheap]
  congr 1
  · refine countP_congr fun q hq => ?_
    rw [update_of_ne (mem_range.mp hq).ne]
  · simp

namespace Filling

variable (h : Filling σ m)

include h

theorem updateClockIdx (hm : m < 64) : σ.updateClockIdx = { σ with clockIdx := ⟨m, hm⟩ } := by
  have hclear : σ.refbits ⟨m, hm⟩ = false := by rw [h.bits, decide_eq_false (lt_irrefl m)]
  have hhand := h.hand
  rw [updateClockIdx_of_clear hclear, h.bits]
  by_cases hpos : 0 < m
  · have hnext : σ.clockIdx + 1 = ⟨m, hm⟩ := Fin.ext (by
      rw [Fin.val_add_one_of_lt' (by omega), hhand]
      exact Nat.sub_add_cancel hpos)
    rw [if_pos (decide_eq_true (by omega)), hnext]
  · have hsame : σ.clockIdx = ⟨m, hm⟩ := by
      apply Fin.ext
      change σ.clockIdx.val = m
      omega
    rw [if_neg (by simp; omega), ← hsame]

theorem setRefbit (hslot : σ.cacheSectors slot = some p) : σ.setRefbit slot = σ := by
  have hset : update σ.refbits slot true = σ.refbits :=
    update_eq_self_iff.mpr (by rw [h.bits, decide_eq_true (h.slots hslot)])
  rw [Cache.setRefbit, hset]

theorem congr (hbits : σ'.refbits = σ.refbits) (hslots : σ'.cacheSectors = σ.cacheSectors)
    (hhand : σ'.clockIdx = σ.clockIdx) (hentries : σ'.entries = σ.entries) : Filling σ' m :=
  ⟨hbits ▸ h.bits, hslots ▸ h.slots, hhand ▸ h.hand, hentries.trans h.entries⟩

theorem insert (hm : m < 64) (hbits : σ'.refbits = update σ.refbits ⟨m, hm⟩ true)
    (hslots : σ'.cacheSectors = update σ.cacheSectors ⟨m, hm⟩ (some p))
    (hhand : σ'.clockIdx = ⟨m, hm⟩) (hentries : σ'.entries = σ.entries + 1) :
    Filling σ' (m + 1) where
  bits i := by
    rw [hbits]
    by_cases hi : i = ⟨m, hm⟩
    · rw [hi, update_self]
      exact (decide_eq_true (Nat.lt_succ_self m)).symm
    · have hne : i.val ≠ m := fun heq => hi (Fin.ext heq)
      rw [update_of_ne hi, h.bits]
      exact decide_eq_decide.mpr (by omega)
  slots {i q} hq := by
    by_cases hi : i = ⟨m, hm⟩
    · rw [hi]
      exact Nat.lt_succ_self m
    · rw [hslots, update_of_ne hi] at hq
      exact (h.slots hq).trans (Nat.lt_succ_self m)
  hand := by
    rw [hhand]
    rfl
  entries := by rw [hentries, h.entries]

theorem replaceEntry (hm : m < 64) (sector : ℕ) (dirty : Bool) :
    ∃ σ', { σ with clockIdx := ⟨m, hm⟩ }.replaceEntry sector ⟨m, hm⟩ dirty = some σ' ∧
      Filling σ' (m + 1) := by
  have hslot : σ.cacheSectors ⟨m, hm⟩ = none := by
    by_contra hne
    obtain ⟨p, hp⟩ := ne_none_iff_exists'.mp hne
    exact lt_irrefl m (h.slots hp)
  have hheap : update σ.heap σ.brk (some ⟨sector, ⟨m, hm⟩, dirty⟩) σ.brk =
      some ⟨sector, ⟨m, hm⟩, dirty⟩ := update_self ..
  refine ⟨_, by simp only [Cache.replaceEntry, mallocEntry, hslot, bufferCacheEvict,
    bufferCacheInsert, bind_eq_bind, bind_some, hheap]; rfl, ?_⟩
  exact h.insert hm rfl rfl rfl (entries_succ rfl rfl)

theorem read (hm : m < 64) (hσ : Sound σ) {r : Cache × Block size}
    (hr : σ.bufferCacheRead sector size offset = some r) :
    ∃ m' ≤ m + 1, Filling r.1 m' ∧ m' + σ.keysOf (.read sector size offset) = m + 3 := by
  unfold bufferCacheRead readLocked bufferCacheFind at hr
  change ∃ m' ≤ m + 1, _ ∧ m' + (if (σ.bufferCache sector).isSome then 3 else 2) = m + 3
  cases hs : σ.bufferCache sector with
  | some p =>
    obtain ⟨e, hp, -, hslot⟩ := hσ.hash hs
    simp only [hs, hp, readFromBuffer, bufferCacheFind, bind_eq_bind, bind_some,
      h.setRefbit hslot, bind_eq_some_iff] at hr
    obtain ⟨bytes, -, hr⟩ := hr
    cases hr
    exact ⟨m, Nat.le_succ m, h, rfl⟩
  | none =>
    obtain ⟨σ₁, hσ1, hfill⟩ := h.replaceEntry hm sector false
    simp only [hs, h.updateClockIdx hm, readFromDisk, hσ1, fillFromDisk, bind_eq_bind,
      bind_some, bind_eq_some_iff] at hr
    obtain ⟨c, -, bytes, -, hr⟩ := hr
    cases hr
    exact ⟨m + 1, le_rfl, hfill.congr rfl rfl rfl rfl, rfl⟩

theorem write {data : List UInt8} (hm : m < 64) (hσ : Sound σ)
    (hw : σ.bufferCacheWrite sector (Block.ofList data) offset = some σ') :
    ∃ m' ≤ m + 1, Filling σ' m' ∧ m' + σ.keysOf (.write sector data offset) = m + 3 := by
  unfold bufferCacheWrite writeLocked bufferCacheFind at hw
  change ∃ m' ≤ m + 1, _ ∧ m' + (if (σ.bufferCache sector).isSome then 3 else 2) = m + 3
  cases hs : σ.bufferCache sector with
  | some p =>
    obtain ⟨e, hp, -, hslot⟩ := hσ.hash hs
    have hdirty : Filling { σ with
        heap := update σ.heap p (some { e with dirty := true }) } m := by
      refine h.congr rfl rfl rfl (entries_congr rfl fun q => ?_)
      by_cases hq : q = p
      · simp [hq, hp]
      · simp [hq]
    simp only [hs, hp, writeExistBuffer, bufferCacheFind, bind_eq_bind, bind_some,
      hdirty.setRefbit hslot, copyIn, ite_none_right_eq_some, some.injEq] at hw
    obtain ⟨-, rfl⟩ := hw
    exact ⟨m, Nat.le_succ m, hdirty.congr rfl rfl rfl rfl, rfl⟩
  | none =>
    obtain ⟨σ₁, hσ1, hfill⟩ := h.replaceEntry hm sector true
    simp only [hs, h.updateClockIdx hm, writeNewBuffer, hσ1, copyIn, bind_eq_bind,
      bind_some, ite_none_right_eq_some, some.injEq] at hw
    obtain ⟨-, rfl⟩ := hw
    exact ⟨m + 1, le_rfl, hfill.congr rfl rfl rfl rfl, rfl⟩

theorem step (hm : m < 64) (hσ : Sound σ) (hop : op ≠ .flush) (hstep : σ.step op = some σ') :
    ∃ m' ≤ m + 1, Filling σ' m' ∧ m' + σ.keysOf op = m + 3 := by
  cases op with
  | read sector size offset =>
    obtain ⟨r, hr, rfl⟩ := map_eq_some_iff.mp hstep
    exact h.read hm hσ hr
  | write sector data offset => exact h.write hm hσ hstep
  | flush => exact absurd rfl hop

end Filling

theorem always_blocks_iff {u : Counted} {ops : List Op} (h : Filling u.cache m) (hm : m ≤ k)
    (hk : k ≤ 21) (hblocks : u.blocks = 3 * k) (hσ : Sound u.cache)
    (hops : ∀ op ∈ ops, op.InRange u.cache.blockSize ∧ op ≠ .flush) :
    Run.Always Counted.step (fun u => u.blocks ≤ 64) u ops ↔ k + ops.length ≤ 21 := by
  induction ops generalizing u m k with
  | nil => exact iff_of_true (by unfold Run.Always; omega) hk
  | cons op ops ih =>
    obtain ⟨hop, hcall⟩ := hops op mem_cons_self
    obtain ⟨σ', hstep, hσ', hsize⟩ := step_sound hσ hop
    obtain ⟨m', hm', hfill, hkeys⟩ := h.step (by omega) hσ hcall hstep
    have hcount : u.step op = some ⟨σ', u.keys + u.cache.keysOf op⟩ := by
      rw [Counted.step, hstep]
      rfl
    have hblocks' : Counted.blocks ⟨σ', u.keys + u.cache.keysOf op⟩ = 3 * (k + 1) := by
      have hentries := h.entries
      have hentries' := hfill.entries
      unfold Counted.blocks at hblocks ⊢
      dsimp only
      omega
    have hrest : Run.Always Counted.step (fun u => u.blocks ≤ 64) u (op :: ops) ↔
        Run.Always Counted.step (fun u => u.blocks ≤ 64)
          ⟨σ', u.keys + u.cache.keysOf op⟩ ops := by
      refine ⟨fun hall => hall.2 _ hcount, fun hall => ⟨by omega, fun u' hu' => ?_⟩⟩
      rw [hcount] at hu'
      cases hu'
      exact hall
    rw [hrest, length_cons]
    by_cases hlast : k + 1 ≤ 21
    · rw [ih hfill (by omega) hlast hblocks' hσ' fun o ho =>
        hsize ▸ hops o (mem_cons_of_mem op ho)]
      omega
    · refine iff_of_false (fun hall => ?_) (by omega)
      have := hall.head
      omega

/-- The calls leave three blocks each behind, so that the twenty-second is one too many. -/
theorem run_blocks_le_iff (n : ℕ) (disk : ℕ → Sector) (base : Fin 64 → Sector) (ops : List Op)
    (hops : ∀ op ∈ ops, op.InRange n ∧ op ≠ .flush) :
    Run.Always Counted.step (fun u => u.blocks ≤ 64) ⟨init n disk base, 0⟩ ops ↔
      ops.length ≤ 21 := by
  rw [always_blocks_iff (k := 0) (init_filling n disk base) le_rfl (by decide) rfl
    (init_sound n disk base) hops, Nat.zero_add]

theorem run_blocks_le_read : Run.Always Counted.step (fun u => u.blocks ≤ 64)
      ⟨init 2 (fun _ _ => 0) fun _ _ => 0, 0⟩ [.read 0 512 0, .write 1 [7] 3, .read 1 4 0] :=
  (run_blocks_le_iff 2 _ _ [.read 0 512 0, .write 1 [7] 3, .read 1 4 0]
    (by simp [Op.InRange])).mpr (by decide)

/-- The sector is read again and again: it is cached, and each read leaves three keys. -/
theorem run_blocks_gt : (Run.run Counted.step ⟨init 1 (fun _ _ => 0) fun _ _ => 0, 0⟩
    (List.replicate 22 (.read 0 512 0))).map (fun u => (u.cache.entries, u.blocks)) =
      some (1, 66) := by
  decide +kernel

end CS162.Filesys.Cache
