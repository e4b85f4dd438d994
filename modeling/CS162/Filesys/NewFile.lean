import CS162.Filesys.FileRead
import CS162.Filesys.Mapping

/-!
# What a new file reads as

`inode_create` clears its index blocks and the sectors past the direct ones, and leaves the
direct sectors as they are: they read as whatever was on the device.  The positions past them
are looked up in blocks of zeros and lead to sector 0.
-/

namespace CS162.Filesys

open Prog InodeDisk Function Block List

variable {σ σ' τ : Fs} {inode : Inode} {pos length L : ℕ} {A : List ℕ} {d : InodeDisk}

/-- The loop of `inode_read_at` reads every byte of the file as 0. -/
def ReadsZero (σ : Fs) (inode : Inode) (length : ℕ) : Prop :=
  ∀ pos < length, Does (readLoop inode 1 1 pos []) σ fun r _ => r = [0]

theorem reads_zero_iff (h : σ.Sound) (hf : Sized σ inode.sector L) (hpos : pos < L)
    (hok : SectorOk σ inode.sector (pos / 512)) :
    Does (readLoop inode 1 1 pos []) σ (fun r _ => r = [0]) ↔ byteAt σ inode.sector pos = 0 := by
  have hrange : ∀ k, pos / 512 ≤ k → 512 * k < pos + 1 → SectorOk σ inode.sector k := by
    intro k hk hk'
    obtain rfl : k = pos / 512 := by omega
    exact hok
  have hread := readLoop_at h hf 1 [] hpos hrange le_rfl
  have hone : bytesAt σ inode.sector pos 1 = [byteAt σ inode.sector pos] := rfl
  rw [nil_append, hone] at hread
  constructor
  · rintro ⟨r, σ', hrun, rfl⟩
    exact (singleton_inj.mp (hread.ensures _ _ hrun).1).symm
  · intro hzero
    refine hread.mono fun r _ hr => ?_
    rw [hr.1, hzero]

namespace Created

variable (h : Created σ inode.sector length A τ d σ')

include h

theorem sized : Sized σ' inode.sector length where
  sector_lt := by
    rw [h.size]
    exact h.lt
  length := h.length_eq
  max := h.max

theorem reads_direct_iff (hkept : KeepsDirect σ τ (range' 0 ((length + 511) / 512)) d)
    (hpos : pos < length) (hidx : pos / 512 < 122) :
    Does (readLoop inode 1 1 pos []) σ' (fun r _ => r = [0]) ↔
      (σ.view (direct (σ'.view inode.sector) (pos / 512))).byte (pos % 512) = 0 := by
  have hmem := h.built.direct_mem (pos / 512) hidx (by omega)
  have hsector : sectorOf σ' inode.sector (pos / 512) = direct d (pos / 512) := by
    rw [sectorOf_direct hidx, dataSector, h.view_inode]
  have hok : SectorOk σ' inode.sector (pos / 512) := by
    refine ⟨⟨by omega, by omega, by omega⟩, ?_⟩
    rw [hsector]
    exact (h.mem_used hmem).1
  have hview : σ'.view (direct d (pos / 512)) =
      σ.view (direct d (pos / 512)) := by
    rw [h.wrote.view, update_of_ne (h.ne_of_mem hmem h.used)]
    exact hkept _ (by rw [mem_range'_1]; omega) hidx
  rw [reads_zero_iff h.wrote.sound h.sized hpos hok, byteAt, hsector, hview, h.view_inode]

theorem reads_singly_iff (hpos : pos < length) (hidx : 122 ≤ pos / 512) (hidx' : pos / 512 < 250) :
    Does (readLoop inode 1 1 pos []) σ' (fun r _ => r = [0]) ↔
      (σ'.view 0).byte (pos % 512) = 0 := by
  have hsector : sectorOf σ' inode.sector (pos / 512) = 0 := by
    rw [sectorOf_singly hidx hidx', h.view_inode, h.view_singly, u32_zero]
  have hok : SectorOk σ' inode.sector (pos / 512) := by
    refine ⟨⟨fun _ _ => ?_, by omega, by omega⟩, ?_⟩
    · rw [h.view_inode, h.size]
      exact h.grown.lt _ h.built.singly_mem
    · rw [hsector]
      exact Nat.zero_lt_of_lt h.sized.sector_lt
  rw [reads_zero_iff h.wrote.sound h.sized hpos hok, byteAt, hsector]

theorem reads_doubly (hdoubly : τ.view (doublyIndirect d) = fun _ => 0)
    (hzero : σ'.view 0 = fun _ => 0) (hpos : pos < length) (hidx : 250 ≤ pos / 512) :
    Does (readLoop inode 1 1 pos []) σ' fun r _ => r = [0] := by
  have hpos0 : 0 < σ'.size := Nat.zero_lt_of_lt h.sized.sector_lt
  have hview : σ'.view (doublyIndirect d) = fun _ => 0 := by
    rw [h.wrote.view, update_of_ne (h.ne_of_mem h.built.doubly_mem h.used), hdoubly]
  have hsector : sectorOf σ' inode.sector (pos / 512) = 0 := by
    rw [sectorOf, if_neg (by omega), if_neg (by omega), h.view_inode, hview, u32_zero,
      hzero, u32_zero]
  have hok : SectorOk σ' inode.sector (pos / 512) := by
    refine ⟨⟨by omega, fun _ => ?_, fun _ => ?_⟩, ?_⟩
    · rw [h.view_inode, h.size]
      exact h.grown.lt _ h.built.doubly_mem
    · rw [h.view_inode, hview, u32_zero]
      exact hpos0
    · rw [hsector]
      exact hpos0
  rw [reads_zero_iff h.wrote.sound h.sized hpos hok, byteAt, hsector, hzero, byte_zero]

theorem view_zero (hinode : inode.sector ≠ 0) (hused : σ.freeMap 0 = true) (hmap : ¬ MapData σ 0) :
    σ'.view 0 = σ.view 0 := by
  rw [h.wrote.view, update_of_ne hinode.symm]
  exact h.grown.view_used hused hmap

theorem reads_zero_iff_views (hkept : KeepsDirect σ τ (range' 0 ((length + 511) / 512)) d)
    (hdoubly : τ.view (doublyIndirect d) = fun _ => 0) :
    ReadsZero σ' inode length ↔
      (∀ pos < length, pos < 512 * 122 →
        (σ.view (direct (σ'.view inode.sector) (pos / 512))).byte (pos % 512) = 0) ∧
      ∀ pos < length, 512 * 122 ≤ pos → (σ'.view 0).byte (pos % 512) = 0 := by
  refine ⟨fun hzero => ⟨fun pos hpos hidx => ?_, fun pos hpos hidx => ?_⟩, ?_⟩
  · exact (h.reads_direct_iff hkept hpos (by omega)).mp (hzero pos hpos)
  · -- the same byte of sector 0 is met at the index 122
    have hread := hzero (512 * 122 + pos % 512) (by omega)
    rw [h.reads_singly_iff (by omega) (by omega) (by omega)] at hread
    rwa [Nat.mul_add_mod, Nat.mod_mod] at hread
  · rintro ⟨hdirect, hlarge⟩ pos hpos
    by_cases hidx : pos / 512 < 122
    · exact (h.reads_direct_iff hkept hpos hidx).mpr (hdirect pos hpos (by omega))
    by_cases hidx' : pos / 512 < 250
    · exact (h.reads_singly_iff hpos (by omega) hidx').mpr (hlarge pos hpos (by omega))
    · refine h.reads_doubly hdoubly ?_ hpos (by omega)
      -- the index 122 has met every byte of sector 0
      funext k
      have hk := hlarge (512 * 122 + k) (by omega) (by omega)
      rw [Nat.mul_add_mod, Nat.mod_eq_of_lt k.isLt, byte, dif_pos k.isLt] at hk
      exact hk

/-- The direct sectors are the free ones from the third on. -/
theorem direct_eq {i : ℕ} (hi : i < 122) (hlen : 512 * i < length) :
    direct d i = σ.freeList.getD (i + 2) 0 := by
  have hA := h.built.order i hi hlen
  rw [h.grown.list, getD_eq_getElem?_getD, getElem?_append_left, hA, Option.getD_some]
  exact (List.getElem?_eq_some_iff.mp hA).1

/-- A free sector 0 is the first index block. -/
theorem view_zero_free (hfree : σ.freeMap 0 = false) : σ'.view 0 = fun _ => 0 := by
  have hsize : 0 < σ.size := Nat.zero_lt_of_lt h.lt
  have hfirst : σ.freeList[0]? = some 0 := by
    rw [Fs.freeList, show σ.size = σ.size - 1 + 1 by omega, range_succ_eq_map, filter_cons, hfree]
    rfl
  have hsingly : singlyIndirect d = 0 := by
    have hA := h.built.singly_first
    rw [h.grown.list, getElem?_append_left (List.getElem?_eq_some_iff.mp hA).1, hA] at hfirst
    exact Option.some.inj hfirst
  rw [← hsingly, h.view_singly]

end Created

theorem byte_eq_zero_iff {n k : ℕ} (b : Block n) (hk : k < 4) :
    b.byte k = 0 ↔ b.u32 0 / 256 ^ k % 256 = 0 := by
  have h0 := (b.byte 0).toNat_lt
  have h1 := (b.byte 1).toNat_lt
  have h2 := (b.byte 2).toNat_lt
  have h3 := (b.byte 3).toNat_lt
  rw [← UInt8.toNat_inj, u32]
  interval_cases k <;> simp only [UInt8.toNat_zero, Nat.zero_add] <;> omega

/-- The bytes of an inode on sector 0 in the place of the contents: with four of them the number of
the first direct sector would be 0. -/
theorem Created.inode_bytes (h : Created σ inode.sector length A τ d σ')
    (hinode : inode.sector = 0) :
    (∀ pos < length, 512 * 122 ≤ pos → d.byte (pos % 512) = 0) ↔
      ∀ k, 512 * 122 + k < length → σ.freeList.getD 2 0 / 256 ^ k % 256 = 0 := by
  by_cases hlen : length ≤ 512 * 122
  · exact iff_of_true (by omega) (by omega)
  have hmem := h.built.direct_mem 0 (by omega) (by omega)
  have hfirst : d.u32 0 = σ.freeList.getD 2 0 := h.direct_eq (i := 0) (by omega) (by omega)
  have hlt : d.u32 0 < 256 ^ 4 := (h.grown.lt _ hmem).trans h.ok.size_lt
  have hne : d.u32 0 ≠ 0 := fun hzero => h.ne_of_mem hmem h.used (hzero.trans hinode.symm)
  rw [← hfirst]
  constructor
  · intro hz k hk
    by_cases hk4 : k < 4
    · have hbyte := hz (512 * 122 + k) hk (by omega)
      rwa [Nat.mul_add_mod, Nat.mod_eq_of_lt (by omega), byte_eq_zero_iff d hk4] at hbyte
    · rw [Nat.div_eq_of_lt (hlt.trans_le (Nat.pow_le_pow_right (by decide) (by omega)))]
  · intro hz pos hpos hlarge
    by_cases hfour : 512 * 122 + 3 < length
    · have h0 := hz 0 (by omega)
      have h1 := hz 1 (by omega)
      have h2 := hz 2 (by omega)
      have h3 := hz 3 hfour
      omega
    · obtain ⟨k, rfl⟩ := Nat.exists_eq_add_of_le hlarge
      rw [Nat.mul_add_mod, Nat.mod_eq_of_lt (by omega), byte_eq_zero_iff d (by omega)]
      exact hz k hpos

/-- What a new file comes upon is zero: its direct sectors, which are the free ones from the third
on, and past them the bytes of sector 0.  That may be the inode, which begins with the number of
the first direct sector, or an index block, which is cleared. -/
structure FindsZeros (σ : Fs) (sector length : ℕ) : Prop where
  direct : ∀ pos < length, pos < 512 * 122 →
    (σ.view (σ.freeList.getD (pos / 512 + 2) 0)).byte (pos % 512) = 0
  zero : sector ≠ 0 → σ.freeMap 0 = true → ∀ pos < length, 512 * 122 ≤ pos →
    (σ.view 0).byte (pos % 512) = 0
  inode : sector = 0 → ∀ k, 512 * 122 + k < length → σ.freeList.getD 2 0 / 256 ^ k % 256 = 0

/-- A new file reads as zeros exactly when what it comes upon is zero before. -/
theorem inodeCreate_readsZero_iff (inode : Inode) (length : ℕ) (h : FsOk σ) (hmap : ¬ MapData σ 0)
    (hlt : inode.sector < σ.size) (hused : σ.freeMap inode.sector = true)
    (hrun : (inodeCreate inode.sector length).run σ = some (true, σ')) :
    ReadsZero σ' inode length ↔ FindsZeros σ inode.sector length := by
  obtain ⟨A, τ, d, hc, hkept, hdoubly⟩ := created_of_run h hlt hused hrun
  have hdirect : ∀ pos < length, pos < 512 * 122 →
      InodeDisk.direct (σ'.view inode.sector) (pos / 512) = σ.freeList.getD (pos / 512 + 2) 0 := by
    intro pos hpos hsmall
    rw [hc.view_inode]
    exact hc.direct_eq (by omega) (by omega)
  have hlarge : (∀ pos < length, 512 * 122 ≤ pos → (σ'.view 0).byte (pos % 512) = 0) ↔
      (inode.sector ≠ 0 → σ.freeMap 0 = true → ∀ pos < length, 512 * 122 ≤ pos →
        (σ.view 0).byte (pos % 512) = 0) ∧
      (inode.sector = 0 → ∀ k, 512 * 122 + k < length →
        σ.freeList.getD 2 0 / 256 ^ k % 256 = 0) := by
    by_cases hinode : inode.sector = 0
    · have hview : σ'.view 0 = d := hinode ▸ hc.view_inode
      rw [hview]
      exact (hc.inode_bytes hinode).trans ⟨fun hz => ⟨fun hne => absurd hinode hne, fun _ => hz⟩,
        fun hz => hz.2 hinode⟩
    · refine Iff.trans ?_ (and_iff_left fun hz => absurd hz hinode).symm
      by_cases hfree : σ.freeMap 0 = true
      · rw [hc.view_zero hinode hfree hmap]
        exact ⟨fun hz _ _ => hz, fun hz => hz hinode hfree⟩
      · rw [hc.view_zero_free (by simpa using hfree)]
        exact iff_of_true (fun _ _ _ => byte_zero) fun _ hused => absurd hused hfree
  rw [hc.reads_zero_iff_views hkept hdoubly, hlarge]
  constructor
  · rintro ⟨hz, hzero, hi⟩
    exact ⟨fun pos hpos hsmall => hdirect pos hpos hsmall ▸ hz pos hpos hsmall, hzero, hi⟩
  · rintro ⟨hz, hzero, hi⟩
    refine ⟨fun pos hpos hsmall => ?_, hzero, hi⟩
    rw [hdirect pos hpos hsmall]
    exact hz pos hpos hsmall

theorem mounted_view_free {n s : ℕ} (hs : 8 ≤ s) : (mounted n).view s = fun _ => 0 := by
  obtain ⟨k, rfl⟩ : ∃ k, s = k + 8 := ⟨s - 8, by omega⟩
  rw [mounted_view]
  rfl

theorem inodeCreate_readsZero_600 :
    ∃ σ σ', Allocated (mounted 16) 8 σ ∧ (inodeCreate 8 600).run σ = some (true, σ') ∧
      ReadsZero σ' ⟨8, 1, false, 0⟩ 600 := by
  obtain ⟨σ, σ', ha, hrun⟩ := run_allocateAndCreate 16 600 (by decide) (by decide)
    (by decide +kernel)
  refine ⟨σ, σ', ha, hrun, ?_⟩
  have hm : FsOk (mounted 16) := mounted_ok (by decide) (by decide)
  have hok : FsOk σ := ha.ok hm
  have hlt : 8 < σ.size := by
    rw [ha.size]
    decide
  have hused : σ.freeMap 8 = true := by
    rw [ha.freeMap]
    rfl
  have hmap : ¬ MapData σ 0 := by
    rw [(ha.keepsMap hm).mapData]
    exact hm.not_mapData rfl
  refine (inodeCreate_readsZero_iff ⟨8, 1, false, 0⟩ 600 hok hmap hlt hused hrun).mpr
    ⟨fun pos hpos _ => ?_, by omega, by omega⟩
  -- the third and the fourth free sector
  have hlist : σ.freeList = [9, 10, 11, 12, 13, 14, 15] := by
    have hfree := ha.freeList
    rw [show (mounted 16).freeList = [8, 9, 10, 11, 12, 13, 14, 15] by decide +kernel] at hfree
    exact (cons.inj hfree).2.symm
  have hview : ∀ s, 8 ≤ s → σ.view s = fun _ => 0 := fun s hs => by
    have hfree : ¬ MapData (mounted 16) s := fun hd => by
      have := hm.mapData_used hd
      simp [mounted] at this
      omega
    rw [ha.view s hfree, mounted_view_free hs]
  rw [hlist, hview, byte_zero]
  have : pos / 512 = 0 ∨ pos / 512 = 1 := by omega
  rcases this with hk | hk <;> rw [hk] <;> decide

/-- The formatted device on whose sector 11 a removed file has left its bytes. -/
def stale : Fs :=
  { mounted 16 with
    cache := Cache.init 16 (update (formatted 16) 11 fun _ => 1) fun _ _ => 0 }

/-- The first byte of a new file is one of the removed file. -/
theorem inodeCreate_stale : ((do
      let r ← allocateAndCreate 1
      let bytes ← readLoop ⟨8, 1, false, 0⟩ 1 1 0 []
      return (r, bytes)).run stale).map Prod.fst = some ((some 8, true), [1]) := by
  decide +kernel

end CS162.Filesys
