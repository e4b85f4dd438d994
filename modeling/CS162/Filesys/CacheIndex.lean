import CS162.Filesys.Cache
import CS162.Lib.Slots

/-!
# The two indexes of the cache agree

A cached sector is found through the hash table by its number and through `cache_sectors` by
its slot.  `Indexed` says that both lead to the same structure, hence that no sector is in two
slots; the sections of `cache.c` that change the indexes keep it.
-/

namespace CS162.Filesys.Cache

open Option Function

variable {σ σ' : Cache} {s p q : ℕ} {i j : Fin 64} {e : CacheSector}

/-- The hash table and the slots hold the same structures, each under the sector and
in the slot it names.  Addresses `malloc` has not given out yet are free. -/
structure Indexed (σ : Cache) : Prop where
  slot : ∀ {i p}, σ.cacheSectors i = some p →
    ∃ e, σ.heap p = some e ∧ e.clockIdx = i ∧ σ.bufferCache e.sectorIdx = some p
  hash : ∀ {s p}, σ.bufferCache s = some p →
    ∃ e, σ.heap p = some e ∧ e.sectorIdx = s ∧ σ.cacheSectors e.clockIdx = some p
  fresh : ∀ {p}, σ.brk ≤ p → σ.heap p = none

namespace Indexed

variable (h : Indexed σ)

include h

theorem of_eq (hheap : σ'.heap = σ.heap) (hbrk : σ'.brk = σ.brk)
    (hhash : σ'.bufferCache = σ.bufferCache) (hslot : σ'.cacheSectors = σ.cacheSectors) :
    Indexed σ' where
  slot hp := by
    rw [hslot] at hp
    rw [hheap, hhash]
    exact h.slot hp
  hash hp := by
    rw [hhash] at hp
    rw [hheap, hslot]
    exact h.hash hp
  fresh hp := by
    rw [hbrk] at hp
    rw [hheap]
    exact h.fresh hp

theorem slot_eq (hi : σ.cacheSectors i = some p) (hp : σ.heap p = some e) : e.clockIdx = i := by
  obtain ⟨e', he', hc, -⟩ := h.slot hi
  rw [hp] at he'
  cases he'
  exact hc

theorem hash_eq (hi : σ.cacheSectors i = some p) (hp : σ.heap p = some e) :
    σ.bufferCache e.sectorIdx = some p := by
  obtain ⟨e', he', -, hb⟩ := h.slot hi
  rw [hp] at he'
  cases he'
  exact hb

theorem sector_eq (hs : σ.bufferCache s = some p) (hp : σ.heap p = some e) : e.sectorIdx = s := by
  obtain ⟨e', he', hc, -⟩ := h.hash hs
  rw [hp] at he'
  cases he'
  exact hc

theorem slot_of_hash (hs : σ.bufferCache s = some p) (hp : σ.heap p = some e) :
    σ.cacheSectors e.clockIdx = some p := by
  obtain ⟨e', he', -, hb⟩ := h.hash hs
  rw [hp] at he'
  cases he'
  exact hb

theorem slot_inj (hi : σ.cacheSectors i = some p) (hj : σ.cacheSectors j = some p) : i = j := by
  obtain ⟨e, he, hc, -⟩ := h.slot hi
  rw [← hc, h.slot_eq hj he]

theorem lt_brk (hp : σ.heap p = some e) : p < σ.brk := by
  by_contra hlt
  rw [h.fresh (Nat.not_lt.mp hlt)] at hp
  cases hp

end Indexed

theorem init_indexed (n : ℕ) (disk : ℕ → Sector) (base : Fin 64 → Sector) :
    Indexed (init n disk base) where
  slot hp := by cases hp
  hash hp := by cases hp
  fresh _ := rfl

theorem mallocEntry_indexed (h : Indexed σ) : Indexed (σ.mallocEntry e) := by
  have hne : ∀ {q e'}, σ.heap q = some e' → q ≠ σ.brk :=
    fun hq => (h.lt_brk hq).ne
  refine ⟨fun hp => ?_, fun hp => ?_, fun {q} hq => ?_⟩
  · obtain ⟨e', he', hc⟩ := h.slot hp
    exact ⟨e', by rw [← he']; exact update_of_ne (hne he') .., hc⟩
  · obtain ⟨e', he', hc⟩ := h.hash hp
    exact ⟨e', by rw [← he']; exact update_of_ne (hne he') .., hc⟩
  · change σ.brk + 1 ≤ q at hq
    rw [← h.fresh (p := q) (by omega)]
    exact update_of_ne (by omega) ..

theorem evictDump_eq (hd : σ.evictDump p = some σ') : ∃ d, σ' = { σ with disk := d } := by
  unfold evictDump blockWrite at hd
  simp only [bind_eq_bind, bind_eq_some_iff] at hd
  obtain ⟨e, -, hd⟩ := hd
  split_ifs at hd
  · exact ⟨_, (some.inj hd).symm⟩
  · exact ⟨_, (some.inj hd).symm⟩

/-- What is left when the structure in slot `i` has been taken out of the cache. -/
structure Dropped (σ : Cache) (i : Fin 64) (p : ℕ) (σ' : Cache) : Prop where
  indexed : Indexed σ'
  brk : σ'.brk = σ.brk
  blockSize : σ'.blockSize = σ.blockSize
  disk : σ'.disk = σ.disk
  heap : ∀ {q}, q ≠ p → σ'.heap q = σ.heap q
  freed : σ'.heap p = none
  slot : σ'.cacheSectors i = none
  slots : ∀ {j}, j ≠ i → σ'.cacheSectors j = σ.cacheSectors j
  hash : ∀ {s}, σ'.bufferCache s = if σ.bufferCache s = some p then none else σ.bufferCache s
  base : ∀ {j}, j ≠ i → σ'.bufferBase j = σ.bufferBase j

theorem evictDrop_dropped (h : Indexed σ) (hi : σ.cacheSectors i = some p) :
    ∃ σ', σ.evictDrop p = some σ' ∧ Dropped σ i p σ' := by
  obtain ⟨e, he, rfl, hs⟩ := h.slot hi
  have hfree : σ.freeSlot e.clockIdx = update σ.heap p none := by
    simp only [freeSlot, hi]
  -- no other sector leads to the victim
  have hother : ∀ {s q}, s ≠ e.sectorIdx → σ.bufferCache s = some q → q ≠ p := by
    rintro s q hne hq rfl
    exact hne (h.sector_eq hq he).symm
  refine ⟨_, by rw [evictDrop, he, bind_eq_bind, bind_some, hfree], ?_⟩
  constructor
  case brk => rfl
  case blockSize => rfl
  case disk => rfl
  case heap => exact fun hq => update_of_ne hq ..
  case freed => exact update_self ..
  case slot => exact update_self ..
  case slots => exact fun hj => update_of_ne hj ..
  case base => exact fun hj => update_of_ne hj ..
  case hash =>
    intro s
    dsimp only
    by_cases hse : s = e.sectorIdx
    · rw [hse, update_self, if_pos hs]
    · rw [update_of_ne hse, if_neg fun hq => hother hse hq rfl]
  case indexed =>
    refine ⟨fun {j q} hq => ?_, fun {s q} hq => ?_, fun {q} hq => ?_⟩
    · obtain ⟨hj, hq'⟩ := Slots.of_update_none hq
      dsimp only
      obtain ⟨e', he', hc, hb⟩ := h.slot hq'
      have hqp : q ≠ p := by
        rintro rfl
        exact hj (h.slot_inj hq' hi)
      have hse : e'.sectorIdx ≠ e.sectorIdx := by
        intro heq
        rw [heq, hs] at hb
        exact hqp (some.inj hb).symm
      exact ⟨e', by rw [update_of_ne hqp, he'], hc, by rw [update_of_ne hse, hb]⟩
    · obtain ⟨hse, hq⟩ := Slots.of_update_none hq
      dsimp only
      obtain ⟨e', he', hc, hb⟩ := h.hash hq
      have hqp : q ≠ p := hother hse hq
      have hj : e'.clockIdx ≠ e.clockIdx := by
        intro heq
        rw [heq, hi] at hb
        exact hqp (some.inj hb).symm
      exact ⟨e', by rw [update_of_ne hqp, he'], hc, by rw [update_of_ne hj, hb]⟩
    · dsimp only
      rw [update_apply]
      split_ifs
      · rfl
      · exact h.fresh hq

/-- What is there when the structure `e` at `p` has been put into the cache. -/
structure Inserted (σ : Cache) (p : ℕ) (e : CacheSector) (σ' : Cache) : Prop where
  indexed : Indexed σ'
  heap : σ'.heap = σ.heap
  brk : σ'.brk = σ.brk
  blockSize : σ'.blockSize = σ.blockSize
  disk : σ'.disk = σ.disk
  base : σ'.bufferBase = σ.bufferBase
  slots : σ'.cacheSectors = update σ.cacheSectors e.clockIdx (some p)
  hash : σ'.bufferCache = update σ.bufferCache e.sectorIdx (some p)

theorem bufferCacheInsert_inserted (h : Indexed σ) (hp : σ.heap p = some e)
    (hslot : σ.cacheSectors e.clockIdx = none) (hsector : σ.bufferCache e.sectorIdx = none) :
    ∃ σ', σ.bufferCacheInsert p = some σ' ∧ Inserted σ p e σ' := by
  refine ⟨_, by rw [bufferCacheInsert, hp, bind_eq_bind, bind_some], ?_⟩
  refine ⟨?_, rfl, rfl, rfl, rfl, rfl, rfl, rfl⟩
  refine ⟨fun {j q} hq => ?_, fun {s q} hq => ?_, fun hq => h.fresh hq⟩
  · dsimp only [setRefbit] at hq ⊢
    rw [update_apply] at hq
    split_ifs at hq with hj
    · cases hq
      exact ⟨e, hp, hj.symm, update_self ..⟩
    · obtain ⟨e', he', hc, hb⟩ := h.slot hq
      refine ⟨e', he', hc, ?_⟩
      rw [update_of_ne, hb]
      intro heq
      rw [heq, hsector] at hb
      cases hb
  · dsimp only [setRefbit] at hq ⊢
    rw [update_apply] at hq
    split_ifs at hq with hs
    · cases hq
      exact ⟨e, hp, hs.symm, update_self ..⟩
    · obtain ⟨e', he', hc, hb⟩ := h.hash hq
      refine ⟨e', he', hc, ?_⟩
      rw [update_of_ne, hb]
      intro heq
      rw [heq, hslot] at hb
      cases hb

theorem updateClockIdx_eq (σ : Cache) :
    ∃ r c, σ.updateClockIdx = { σ with refbits := r, clockIdx := c } := by
  unfold updateClockIdx
  split_ifs
  · exact ⟨_, _, rfl⟩
  · exact ⟨σ.refbits, _, rfl⟩
  · exact ⟨σ.refbits, σ.clockIdx, rfl⟩

theorem updateClockIdx_bufferCache (σ : Cache) : σ.updateClockIdx.bufferCache = σ.bufferCache := by
  obtain ⟨r, c, hu⟩ := σ.updateClockIdx_eq
  rw [hu]

theorem updateClockIdx_blockSize (σ : Cache) : σ.updateClockIdx.blockSize = σ.blockSize := by
  obtain ⟨r, c, hu⟩ := σ.updateClockIdx_eq
  rw [hu]

theorem setDirty_indexed (h : Indexed σ) (hp : σ.heap p = some e) :
    Indexed { σ with heap := update σ.heap p (some { e with dirty := true }) } := by
  refine ⟨fun {j q} hq => ?_, fun {s q} hq => ?_, fun {q} hq => ?_⟩
  · obtain ⟨e', he', hc, hb⟩ := h.slot hq
    dsimp only at hq ⊢
    by_cases hqp : q = p
    · subst hqp
      rw [hp] at he'
      cases he'
      exact ⟨_, update_self .., hc, hb⟩
    · exact ⟨e', by rw [update_of_ne hqp, he'], hc, hb⟩
  · obtain ⟨e', he', hc, hb⟩ := h.hash hq
    dsimp only at hq ⊢
    by_cases hqp : q = p
    · subst hqp
      rw [hp] at he'
      cases he'
      exact ⟨_, update_self .., hc, hb⟩
    · exact ⟨e', by rw [update_of_ne hqp, he'], hc, hb⟩
  · have hqp : q ≠ p := by
      rintro rfl
      exact absurd (h.lt_brk hp) (Nat.not_lt.mpr hq)
    dsimp only
    rw [update_of_ne hqp, h.fresh hq]

end CS162.Filesys.Cache
