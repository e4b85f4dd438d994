import CS162.Filesys.InodeData

/-!
# Reading a file

`inode_read_at` returns the bytes of the file for every range inside it, and nothing for a
range that ends beyond it, even where the range begins inside.
-/

namespace CS162.Filesys

open Prog List

variable {σ σ' τ : Fs} {inode : Inode} {sector size offset pos L p : ℕ}

def fileByte (σ : Fs) (sector pos : ℕ) : UInt8 :=
  (σ.view (dataSector σ sector (pos / 512))).byte (pos % 512)

def fileBytes (σ : Fs) (sector offset size : ℕ) : List UInt8 :=
  (range size).map fun k => fileByte σ sector (offset + k)

theorem fileBytes_congr (hview : σ'.view = σ.view) (sector offset size : ℕ) :
    fileBytes σ' sector offset size = fileBytes σ sector offset size := by
  unfold fileBytes fileByte dataSector
  rw [hview]

def byteAt (σ : Fs) (sector pos : ℕ) : UInt8 :=
  (σ.view (sectorOf σ sector (pos / 512))).byte (pos % 512)

def bytesAt (σ : Fs) (sector offset size : ℕ) : List UInt8 :=
  (range size).map fun k => byteAt σ sector (offset + k)

theorem bytesAt_add (σ : Fs) (sector offset m n : ℕ) :
    bytesAt σ sector offset (m + n) =
      bytesAt σ sector offset m ++ bytesAt σ sector (offset + m) n := by
  unfold bytesAt
  rw [range_add, map_append, map_map]
  simp only [Function.comp_def, Nat.add_assoc]

theorem bytesAt_congr (hview : σ'.view = σ.view) (sector offset size : ℕ) :
    bytesAt σ' sector offset size = bytesAt σ sector offset size := by
  unfold bytesAt byteAt
  simp only [sectorOf_congr hview, hview]

theorem bytesAt_direct (h : offset + size ≤ 512 * 122) (σ : Fs) (sector : ℕ) :
    bytesAt σ sector offset size = fileBytes σ sector offset size := by
  refine map_congr_left fun k hk => ?_
  have hk' := mem_range.mp hk
  rw [byteAt, fileByte, sectorOf_direct (by omega)]

theorem ofFn_slice_eq (hsize : offset % 512 + size ≤ 512) :
    ofFn ((σ.view (sectorOf σ sector (offset / 512))).slice (offset % 512) size) =
      bytesAt σ sector offset size := by
  refine ext_getElem (by simp [bytesAt]) fun k hk hk' => ?_
  rw [length_ofFn] at hk
  have hdiv : (offset + k) / 512 = offset / 512 := by omega
  have hmod : (offset + k) % 512 = offset % 512 + k := by omega
  simp [bytesAt, byteAt, Block.slice, hdiv, hmod]

/-- The length of a file is recorded in its inode, which is inside the device. -/
structure Sized (σ : Fs) (sector L : ℕ) : Prop where
  sector_lt : sector < σ.size
  length : InodeDisk.length (σ.view sector) = L
  max : L ≤ maxLength

/-- The sectors of the file, at any level, are inside the device as well. -/
structure FileAt (σ : Fs) (sector L : ℕ) : Prop extends Sized σ sector L where
  sectors : ∀ k, 512 * k < L → SectorOk σ sector k

theorem Sized.of_same (h : Sized σ sector L) (hs : Same σ σ') : Sized σ' sector L := by
  refine ⟨?_, ?_, h.max⟩
  · rw [hs.size]
    exact h.sector_lt
  · rw [hs.view]
    exact h.length

theorem FileOk.fileAt (h : FileOk σ sector L) : FileAt σ sector L := by
  have hsmall := h.small
  refine ⟨⟨h.sector_lt, h.length_eq, ?_⟩, fun k hk => h.sectorOk hk⟩
  unfold maxLength
  omega

theorem readLoop_at (h : σ.Sound) (hf : Sized σ inode.sector L) (fuel : ℕ)
    (buffer : List UInt8) (hle : offset + size ≤ L)
    (hk : ∀ k, offset / 512 ≤ k → 512 * k < offset + size → SectorOk σ inode.sector k)
    (hfuel : size ≤ fuel) :
    Does (readLoop inode fuel size offset buffer) σ fun r σ' =>
      r = buffer ++ bytesAt σ inode.sector offset size ∧ Same σ σ' := by
  induction fuel generalizing σ size offset buffer with
  | zero =>
    have hsize : size = 0 := by omega
    subst hsize
    rw [readLoop, does_pure]
    exact ⟨(append_nil buffer).symm, .refl h⟩
  | succ fuel ih =>
    rw [readLoop]
    by_cases hsize : size = 0
    · subst hsize
      rw [if_pos rfl, does_pure]
      exact ⟨(append_nil buffer).symm, .refl h⟩
    · have hmax := hf.max
      have hok := hk (offset / 512) le_rfl (by omega)
      unfold maxLength at hmax
      rw [if_neg hsize]
      refine (byteToSector_at h hf.sector_lt hf.length (by omega) (by omega)
        hok.toIndexOk).bind fun s τ hs => ?_
      have hfτ := hf.of_same hs.2
      refine (inodeLength_at hs.2.sound hfτ.sector_lt hfτ.length).bind fun len υ hlen => ?_
      have hst := hs.2.trans hlen.2
      dsimp only
      rw [hlen.1, chunkSize_eq hle, if_neg (by omega), Int.toNat_natCast, hs.1]
      have hlt : sectorOf σ inode.sector (offset / 512) < υ.size := by
        rw [hst.size]
        exact hok.data_lt
      refine (cacheRead_does hst.sound hlt (by omega)).bind fun b ρ hb => ?_
      have hsame := hst.trans hb.2
      refine (ih hsame.sound (hf.of_same hsame) _ (by omega)
        (fun k hk1 hk2 => (hk k (by omega) (by omega)).of_same hsame) (by omega)).mono
        fun r σ' hr => ⟨?_, hsame.trans hr.2⟩
      -- the bytes of this round, then those of the rest
      have hchunk : size =
          min size (512 - offset % 512) + (size - min size (512 - offset % 512)) := by
        omega
      rw [hr.1, hb.1, hst.view, ofFn_slice_eq (by omega), bytesAt_congr hsame.view,
        append_assoc, ← bytesAt_add, ← hchunk]

theorem FileAt.readAt_zero (h : σ.Sound) (hp : σ.inodes p = some inode)
    (hf : FileAt σ inode.sector L) (hint : offset < 2 ^ 31) :
    Does (inodeReadAt p 0 offset) σ fun r σ' => r = [] ∧ Same σ σ' := by
  refine (getInode_does hp).bind fun i τ hi => ?_
  obtain ⟨rfl, rfl⟩ := hi
  rw [if_neg (by omega)]
  have hsector : Does (byteToSector i ((offset : ℤ) + (0 : ℕ) - 1)) τ
      fun _ τ' => Same τ τ' := by
    by_cases hpos : offset = 0
    · -- the position is before the file, and the index is 0
      subst hpos
      refine (readBlock_does h hf.sector_lt).bind fun d υ hd => ?_
      rw [hd.1, if_neg (by rw [hf.length]; omega)]
      exact does_pure.mpr hd.2
    · have hcast : (offset : ℤ) + (0 : ℕ) - 1 = ((offset - 1 : ℕ) : ℤ) := by omega
      rw [hcast]
      by_cases hpast : L ≤ offset - 1
      · refine (byteToSector_past h hf.sector_lt ?_).mono fun _ _ hs => hs.2
        rw [hf.length]
        omega
      · have hmax := hf.max
        unfold maxLength at hmax
        exact (byteToSector_at h hf.sector_lt hf.length (by omega) (by omega)
          (hf.sectors _ (by omega)).toIndexOk).mono fun _ _ hs => hs.2
  refine hsector.bind fun s υ hs => ?_
  split_ifs
  · exact does_pure.mpr ⟨rfl, hs⟩
  · exact does_pure.mpr ⟨rfl, hs⟩

theorem FileAt.readAt_within (h : σ.Sound) (hsize : σ.size < 2 ^ 32)
    (hp : σ.inodes p = some inode) (hf : FileAt σ inode.sector L) (hle : offset + size ≤ L) :
    Does (inodeReadAt p size offset) σ fun r σ' =>
      r = bytesAt σ inode.sector offset size ∧ Same σ σ' := by
  have hmax := hf.max
  unfold maxLength at hmax
  by_cases hzero : size = 0
  · subst hzero
    exact hf.readAt_zero h hp (by omega)
  refine (getInode_does hp).bind fun i τ hi => ?_
  obtain ⟨rfl, rfl⟩ := hi
  rw [if_neg (by omega)]
  have hcast : (offset : ℤ) + size - 1 = ((offset + size - 1 : ℕ) : ℤ) := by omega
  have hlast := hf.sectors ((offset + size - 1) / 512) (by omega)
  rw [hcast]
  refine (byteToSector_at h hf.sector_lt hf.length (by omega) (by omega)
    hlast.toIndexOk).bind fun s υ hs => ?_
  have hne : s ≠ noSector := by
    have := hlast.data_lt
    rw [hs.1]
    unfold noSector
    omega
  rw [if_neg hne]
  refine (readLoop_at hs.2.sound (hf.toSized.of_same hs.2) size [] hle
    (fun k _ hk => (hf.sectors k (by omega)).of_same hs.2) le_rfl).mono fun r σ' hr => ?_
  refine ⟨?_, hs.2.trans hr.2⟩
  rw [hr.1, nil_append, bytesAt_congr hs.2.view]

theorem FileAt.readAt_past (h : σ.Sound) (hp : σ.inodes p = some inode)
    (hf : FileAt σ inode.sector L) (hpast : L < offset + size) (hint : offset + size < 2 ^ 31) :
    Does (inodeReadAt p size offset) σ fun r σ' => r = [] ∧ Same σ σ' := by
  refine (getInode_does hp).bind fun i τ hi => ?_
  obtain ⟨rfl, rfl⟩ := hi
  rw [if_neg (by omega)]
  refine (byteToSector_past h hf.sector_lt ?_).bind fun s υ hs => ?_
  · rw [hf.length]
    omega
  · rw [if_pos hs.1, does_pure]
    exact ⟨rfl, hs.2⟩

theorem inodeReadAt_does (h : σ.Sound) (hsize : σ.size < 2 ^ 32) (hp : σ.inodes p = some inode)
    (hf : FileOk σ inode.sector L) (hle : offset + size ≤ L) :
    Does (inodeReadAt p size offset) σ fun r σ' =>
      r = fileBytes σ inode.sector offset size ∧ Same σ σ' := by
  rw [← bytesAt_direct (hle.trans hf.small)]
  exact hf.fileAt.readAt_within h hsize hp hle

end CS162.Filesys
