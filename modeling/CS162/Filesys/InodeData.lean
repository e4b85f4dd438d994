import CS162.Filesys.CacheView
import CS162.Filesys.Inode

/-!
# The data of a file

What the functions of `inode.c` that only read and write data do, in terms of the views of
sectors the cache presents.  A file whose sectors are all direct is read and written through
`direct`.
-/

namespace CS162.Filesys

open Prog Function Block InodeDisk

def Fs.size (σ : Fs) : ℕ :=
  σ.cache.blockSize

def Fs.view (σ : Fs) : ℕ → Sector :=
  σ.cache.view

def Fs.Sound (σ : Fs) : Prop :=
  σ.cache.Sound

variable {σ σ' τ : Fs} {inode : Inode} {sector size offset pos L k n written p : ℕ}
  {alloc : Op (Option ℕ)}

/-- The cache has changed, and the rest of the file system has not. -/
structure CacheOnly (σ σ' : Fs) : Prop where
  sound : σ'.Sound
  size : σ'.size = σ.size
  rest : σ' = { σ with cache := σ'.cache }

theorem CacheOnly.refl (h : σ.Sound) : CacheOnly σ σ :=
  ⟨h, rfl, rfl⟩

theorem CacheOnly.trans (h : CacheOnly σ σ') (h' : CacheOnly σ' τ) : CacheOnly σ τ := by
  refine ⟨h'.sound, h'.size.trans h.size, ?_⟩
  rw [h'.rest, h.rest]

/-- What a function that reads data leaves: the same contents everywhere. -/
structure Same (σ σ' : Fs) : Prop extends CacheOnly σ σ' where
  view : σ'.view = σ.view

theorem Same.refl (h : σ.Sound) : Same σ σ :=
  ⟨.refl h, rfl⟩

theorem Same.trans (h : Same σ σ') (h' : Same σ' τ) : Same σ τ :=
  ⟨h.toCacheOnly.trans h'.toCacheOnly, h'.view.trans h.view⟩

structure Wrote (σ : Fs) (sector : ℕ) (c : Sector) (σ' : Fs) : Prop extends CacheOnly σ σ' where
  view : σ'.view = update σ.view sector c

section

variable (h : σ.Sound) (hlt : sector < σ.size)

include h hlt

theorem cacheRead_does (hsize : offset + size ≤ 512) :
    Does (cacheRead sector size offset) σ fun b σ' =>
      b = (σ.view sector).slice offset size ∧ Same σ σ' := by
  obtain ⟨c, hc, hr⟩ := Cache.bufferCacheRead_spec h hlt hsize
  refine ⟨_, { σ with cache := c }, ?_, rfl, ⟨hr.sound, hr.blockSize, rfl⟩, hr.view⟩
  change (σ.cache.bufferCacheRead sector size offset).map _ = _
  rw [hc]
  rfl

theorem cacheWrite_does {data : Block size} (hsize : offset + size ≤ 512) :
    Does (cacheWrite sector data offset) σ fun _ σ' =>
      ∃ base, Wrote σ sector (base.write offset data) σ' ∧
        (σ.cache.Cached sector → base = σ.view sector) := by
  obtain ⟨c, base, hc, hw⟩ := Cache.bufferCacheWrite_spec data h hlt hsize
  refine ⟨(), { σ with cache := c }, ?_, base, ⟨⟨hw.sound, hw.blockSize, rfl⟩, hw.view⟩, hw.old⟩
  change (σ.cache.bufferCacheWrite sector data offset).map _ = _
  rw [hc]
  rfl

theorem readBlock_does : Does (readBlock sector) σ fun d σ' => d = σ.view sector ∧ Same σ σ' := by
  refine (cacheRead_does h hlt (by omega)).mono fun d σ' hd => ⟨?_, hd.2⟩
  rw [hd.1, slice_full]

theorem writeBlock_does (d : Sector) :
    Does (writeBlock sector d) σ fun _ σ' => Wrote σ sector d σ' := by
  refine (cacheWrite_does h hlt (by omega)).mono fun _ σ' hw => ?_
  obtain ⟨base, hw, -⟩ := hw
  rwa [write_full] at hw

theorem readPtr_does (hoff : offset + 4 ≤ 512) :
    Does (readPtr sector offset) σ fun x σ' => x = (σ.view sector).u32 offset ∧ Same σ σ' := by
  refine (cacheRead_does h hlt hoff).bind fun b τ hb => ?_
  rw [does_pure, hb.1, u32_slice]
  exact ⟨rfl, hb.2⟩

end

/-- The sector that holds the bytes from `512 * i` on of the file with its inode on the
given sector. -/
def dataSector (σ : Fs) (sector i : ℕ) : ℕ :=
  direct (σ.view sector) i

/-- The file with its inode on `sector` has length `L`, its sectors are direct, inside
the device and apart from the inode. -/
structure FileOk (σ : Fs) (sector L : ℕ) : Prop where
  sector_lt : sector < σ.size
  length : lengthBits (σ.view sector) = L
  small : L ≤ 512 * 122
  data_lt : ∀ i, 512 * i < L → dataSector σ sector i < σ.size
  data_ne : ∀ i, 512 * i < L → dataSector σ sector i ≠ sector

theorem fileOk_single {x : ℕ} (hlt : sector < σ.size)
    (hlen : lengthBits (σ.view sector) = L) (hL : L ≤ 512)
    (hdata : direct (σ.view sector) 0 = x) (hx : x < σ.size) (hne : x ≠ sector) :
    FileOk σ sector L := by
  have hzero : ∀ i, 512 * i < L → dataSector σ sector i = x := fun i hi => by
    obtain rfl : i = 0 := by omega
    exact hdata
  refine ⟨hlt, hlen, by omega, fun i hi => ?_, fun i hi => ?_⟩
  · rw [hzero i hi]
    exact hx
  · rw [hzero i hi]
    exact hne

theorem FileOk.of_view (h : FileOk σ sector L) (hsize : σ'.size = σ.size)
    (hview : σ'.view sector = σ.view sector) : FileOk σ' sector L := by
  have hdata : dataSector σ' sector = dataSector σ sector := by
    funext i
    rw [dataSector, hview, dataSector]
  refine ⟨by rw [hsize]; exact h.sector_lt, by rw [hview]; exact h.length, h.small, ?_, ?_⟩
  · rw [hdata, hsize]
    exact h.data_lt
  · rw [hdata]
    exact h.data_ne

/-- The sector that `byte_to_sector` finds for the index `k`. -/
def sectorOf (σ : Fs) (sector k : ℕ) : ℕ :=
  if k < 122 then dataSector σ sector k
  else if k < 250 then (σ.view (singlyIndirect (σ.view sector))).u32 (k - 122)
  else
    (σ.view ((σ.view (doublyIndirect (σ.view sector))).u32 ((k - 250) / 128))).u32
      ((k - 250) % 128)

/-- The blocks in which `byte_to_sector` looks the index up are inside the device. -/
structure IndexOk (σ : Fs) (sector k : ℕ) : Prop where
  singly_lt : 122 ≤ k → k < 250 → singlyIndirect (σ.view sector) < σ.size
  doubly_lt : 250 ≤ k → doublyIndirect (σ.view sector) < σ.size
  inner_lt : 250 ≤ k →
    (σ.view (doublyIndirect (σ.view sector))).u32 ((k - 250) / 128) < σ.size

/-- So is the sector it finds. -/
structure SectorOk (σ : Fs) (sector k : ℕ) : Prop extends IndexOk σ sector k where
  data_lt : sectorOf σ sector k < σ.size

theorem sectorOf_direct (hk : k < 122) : sectorOf σ sector k = dataSector σ sector k :=
  if_pos hk

theorem sectorOf_singly (hk : 122 ≤ k) (hk' : k < 250) : sectorOf σ sector k =
    (σ.view (singlyIndirect (σ.view sector))).u32 (k - 122) := by
  rw [sectorOf, if_neg (by omega), if_pos hk']

theorem sectorOf_congr (hview : σ'.view = σ.view) (sector k : ℕ) :
    sectorOf σ' sector k = sectorOf σ sector k := by
  unfold sectorOf dataSector
  rw [hview]

theorem SectorOk.of_same (h : SectorOk σ sector k) (hs : Same σ σ') : SectorOk σ' sector k := by
  refine ⟨⟨?_, ?_, ?_⟩, ?_⟩
  · rw [hs.view, hs.size]
    exact h.singly_lt
  · rw [hs.view, hs.size]
    exact h.doubly_lt
  · rw [hs.view, hs.size]
    exact h.inner_lt
  · rw [sectorOf_congr hs.view, hs.size]
    exact h.data_lt

theorem length_eq {d : InodeDisk} (h : lengthBits d = L) (hL : L ≤ maxLength) :
    length d = L := by
  unfold maxLength at hL
  rw [length, h, if_pos (by omega)]

theorem FileOk.length_eq (h : FileOk σ sector L) : InodeDisk.length (σ.view sector) = L := by
  have hs := h.small
  exact Filesys.length_eq h.length (by unfold maxLength; omega)

theorem sectorIdx_eq (hpos : pos < 2 ^ 41) : (((pos : ℤ).tdiv 512) % 2 ^ 32).toNat = pos / 512 := by
  have htdiv : (pos : ℤ).tdiv 512 = ((pos / 512 : ℕ) : ℤ) := by
    rw [Int.tdiv_eq_ediv_of_nonneg (by omega)]
    norm_cast
  rw [htdiv]
  omega

theorem bytesToSectors_eq (hn : n < 2 ^ 40) : bytesToSectors n = (n + 511) / 512 := by
  have : ((((n + 511 : ℕ) : ℤ).tdiv 512) % 2 ^ 32).toNat = (n + 511) / 512 :=
    sectorIdx_eq (by omega)
  push_cast at this
  exact this

theorem byteToSector_past (h : σ.Sound) (hlt : inode.sector < σ.size) {pos : ℤ}
    (hpos : length (σ.view inode.sector) ≤ pos) :
    Does (byteToSector inode pos) σ fun s σ' => s = noSector ∧ Same σ σ' := by
  refine (readBlock_does h hlt).bind fun d τ hd => ?_
  rw [hd.1, if_pos hpos, does_pure]
  exact ⟨rfl, hd.2⟩

theorem byteToSector_at (h : σ.Sound) (hlt : inode.sector < σ.size)
    (hlen : length (σ.view inode.sector) = L) (hpos : pos < L)
    (hk : pos / 512 < 2 ^ 14) (hindex : IndexOk σ inode.sector (pos / 512)) :
    Does (byteToSector inode pos) σ fun s σ' =>
      s = sectorOf σ inode.sector (pos / 512) ∧ Same σ σ' := by
  refine (readBlock_does h hlt).bind fun d τ hd => ?_
  rw [hd.1, if_neg (by rw [hlen]; omega)]
  dsimp only
  rw [sectorIdx_eq (by omega), determineLevel, sectorOf]
  split_ifs with hdirect hsingly
  · rw [does_pure]
    exact ⟨rfl, hd.2⟩
  · have hlt' := hindex.singly_lt (by omega) hsingly
    refine (readPtr_does hd.2.sound (by rwa [hd.2.size]) (by omega)).mono fun x υ hx => ?_
    rw [hx.1, hd.2.view]
    exact ⟨rfl, hd.2.trans hx.2⟩
  · have hlt' := hindex.doubly_lt (by omega)
    refine (readPtr_does hd.2.sound (by rwa [hd.2.size]) (by omega)).bind fun x υ hx => ?_
    have hsame := hd.2.trans hx.2
    have hinner := hindex.inner_lt (by omega)
    rw [hd.2.view, Nat.sub_sub] at hx
    rw [Nat.sub_sub, hx.1]
    refine (readPtr_does hx.2.sound (by rwa [hsame.size]) (by omega)).mono fun y ρ hy => ?_
    rw [hy.1, hsame.view]
    exact ⟨rfl, hsame.trans hy.2⟩

theorem FileOk.sectorOk (h : FileOk σ sector L) (hk : 512 * k < L) : SectorOk σ sector k := by
  have hsmall := h.small
  refine ⟨⟨by omega, by omega, by omega⟩, ?_⟩
  rw [sectorOf_direct (by omega)]
  exact h.data_lt k hk

theorem byteToSector_does (h : σ.Sound) (hf : FileOk σ inode.sector L) (hpos : pos < L) :
    Does (byteToSector inode pos) σ fun s σ' =>
      s = dataSector σ inode.sector (pos / 512) ∧ Same σ σ' := by
  have hsmall := hf.small
  have hindex := (hf.sectorOk (k := pos / 512) (by omega)).toIndexOk
  rw [← sectorOf_direct (by omega)]
  exact byteToSector_at h hf.sector_lt hf.length_eq hpos (by omega) hindex

theorem inodeLength_at (h : σ.Sound) (hlt : inode.sector < σ.size)
    (hlen : length (σ.view inode.sector) = L) :
    Does (inodeLength inode) σ fun n σ' => n = L ∧ Same σ σ' := by
  refine (readBlock_does h hlt).bind fun d τ hd => ?_
  rw [hd.1, does_pure]
  exact ⟨hlen, hd.2⟩

theorem inodeLength_does (h : σ.Sound) (hf : FileOk σ inode.sector L) :
    Does (inodeLength inode) σ fun n σ' => n = L ∧ Same σ σ' :=
  inodeLength_at h hf.sector_lt hf.length_eq

theorem chunkSize_eq (h : offset + size ≤ L) :
    chunkSize size offset L = (min size (512 - offset % 512) : ℕ) := by
  unfold chunkSize
  omega

/-- What the loop of `inode_write_at` leaves when it has written the `len` bytes of
`buffer` from `written` on to the file from `offset` on.  Sectors outside the range
keep their contents, and if no sector serves two indexes, then each byte of the range
is the byte of the buffer. -/
structure WroteData (σ : Fs) (sector : ℕ) {n : ℕ} (buffer : Block n)
    (len offset written : ℕ) (σ' : Fs) : Prop extends CacheOnly σ σ' where
  frame : ∀ s, (∀ pos, offset ≤ pos → pos < offset + len →
    s ≠ dataSector σ sector (pos / 512)) → σ'.view s = σ.view s
  data : (∀ i j, 512 * i < offset + len → 512 * j < offset + len →
      dataSector σ sector i = dataSector σ sector j → i = j) →
    ∀ pos, offset ≤ pos → pos < offset + len →
      (σ'.view (dataSector σ sector (pos / 512))).byte (pos % 512) =
        buffer.byte (written + (pos - offset))

theorem WroteData.view_inode {buffer : Block n}
    (hw : WroteData σ sector buffer size offset written σ') (hf : FileOk σ sector L)
    (hle : offset + size ≤ L) : σ'.view sector = σ.view sector :=
  hw.frame _ fun pos _ hpos => (hf.data_ne (pos / 512) (by omega)).symm

theorem WroteData.of_same {buffer : Block n} (hw : WroteData τ sector buffer size offset written σ')
    (h : Same σ τ) : WroteData σ sector buffer size offset written σ' := by
  have hdata : dataSector τ sector = dataSector σ sector := by
    funext i
    rw [dataSector, h.view, dataSector]
  refine ⟨h.toCacheOnly.trans hw.toCacheOnly, fun t ht => ?_, fun hinj => ?_⟩
  · rw [hw.frame t (by rwa [hdata]), h.view]
  · have := hw.data (by rwa [hdata])
    rwa [hdata] at this

theorem WroteData.cons {buffer : Block n} {chunk : ℕ} {base : Sector} (hf : FileOk σ sector L)
    (hle : offset + size ≤ L) (hchunk : chunk = min size (512 - offset % 512)) (hpos : 0 < size)
    (hw : Wrote σ (dataSector σ sector (offset / 512))
      (base.write (offset % 512) (buffer.slice written chunk)) τ)
    (hrest : WroteData τ sector buffer (size - chunk) (offset + chunk) (written + chunk) σ') :
    WroteData σ sector buffer size offset written σ' := by
  have hne := hf.data_ne (offset / 512) (by omega)
  -- the round has not changed the inode
  have hsame : ∀ i, dataSector τ sector i = dataSector σ sector i := by
    intro i
    unfold dataSector
    rw [hw.view, update_of_ne hne.symm]
  refine ⟨hw.toCacheOnly.trans hrest.toCacheOnly, fun s hs => ?_, fun hinj pos h1 h2 => ?_⟩
  · rw [hrest.frame s fun pos h1 h2 => ?_, hw.view, update_of_ne (hs offset le_rfl (by omega))]
    rw [hsame]
    exact hs pos (by omega) (by omega)
  · by_cases hin : pos < offset + chunk
    · -- a byte of this round, whose sector the later rounds leave alone
      have hidx : pos / 512 = offset / 512 := by omega
      rw [hrest.frame, hw.view, hidx, update_self,
        byte_write_inside (by omega) (by omega) (by omega), byte_slice (by omega)]
      · congr 1
        omega
      · intro q hq hq' heq
        rw [hsame] at heq
        have := hinj (pos / 512) (q / 512) (by omega) (by omega) heq
        omega
    · have hd := hrest.data (fun i j hi hj heq => ?_) pos (by omega) (by omega)
      · rw [hsame] at hd
        rw [hd]
        congr 1
        omega
      · rw [hsame, hsame] at heq
        exact hinj i j (by omega) (by omega) heq

theorem writeLoop_does (buffer : Block n) (h : σ.Sound) (hf : FileOk σ inode.sector L)
    (fuel written : ℕ) (hle : offset + size ≤ L) (hfuel : size ≤ fuel) :
    Does (writeLoop inode buffer fuel size offset written) σ fun w σ' =>
      w = written + size ∧ WroteData σ inode.sector buffer size offset written σ' := by
  induction fuel generalizing σ size offset written with
  | zero =>
    have hsize : size = 0 := by omega
    subst hsize
    rw [writeLoop, does_pure]
    exact ⟨rfl, .refl h, fun _ _ => rfl, fun _ pos h1 h2 => by omega⟩
  | succ fuel ih =>
    rw [writeLoop]
    by_cases hsize : size = 0
    · subst hsize
      rw [if_pos rfl, does_pure]
      exact ⟨rfl, .refl h, fun _ _ => rfl, fun _ pos h1 h2 => by omega⟩
    · rw [if_neg hsize]
      refine (byteToSector_does h hf (by omega)).bind fun s τ hs => ?_
      have hfτ : FileOk τ inode.sector L := hf.of_view hs.2.size (by rw [hs.2.view])
      refine (inodeLength_does hs.2.sound hfτ).bind fun len υ hlen => ?_
      have hst := hs.2.trans hlen.2
      rw [hlen.1, chunkSize_eq hle, if_neg (by omega), Int.toNat_natCast, hs.1]
      have hlt : dataSector σ inode.sector (offset / 512) < υ.size := by
        rw [hst.size]
        exact hf.data_lt _ (by omega)
      refine (cacheWrite_does hst.sound hlt (by omega)).bind fun _ ρ hρ => ?_
      obtain ⟨base, hw, -⟩ := hρ
      have hdata : dataSector υ inode.sector = dataSector σ inode.sector := by
        funext i
        rw [dataSector, hst.view, dataSector]
      have hfυ : FileOk υ inode.sector L := hf.of_view hst.size (by rw [hst.view])
      have hfρ : FileOk ρ inode.sector L := by
        refine hfυ.of_view hw.size ?_
        rw [hw.view, update_of_ne (hf.data_ne _ (by omega)).symm]
      refine (ih hw.sound hfρ _ (by omega) (by omega)).mono fun w σ' hσ' => ?_
      refine ⟨by rw [hσ'.1]; omega, ?_⟩
      rw [← hdata] at hw
      exact (WroteData.cons hfυ hle rfl (by omega) hw hσ'.2).of_same hst

theorem getInode_does (hp : σ.inodes p = some inode) :
    Does (getInode p) σ fun i σ' => i = inode ∧ σ' = σ :=
  ⟨inode, σ, by change (σ.inodes p).map _ = _; rw [hp]; rfl, rfl, rfl⟩

theorem extendForWrite_lastSector (h : σ.Sound) (hf : FileOk σ inode.sector L) (hn : L ≤ n)
    (hsector : (n + 511) / 512 = (L + 511) / 512) :
    Does (extendForWrite alloc inode n) σ fun ok σ' => ok = true ∧ Same σ σ' := by
  have hsmall := hf.small
  have hmax : n ≤ maxLength := by
    unfold maxLength
    omega
  rw [extendForWrite, if_neg (by omega)]
  refine (byteToSector_past h hf.sector_lt (by rw [hf.length_eq]; omega)).bind fun s τ hs => ?_
  rw [hs.1, if_pos rfl]
  have hlt : inode.sector < τ.size := by
    rw [hs.2.size]
    exact hf.sector_lt
  refine (readBlock_does hs.2.sound hlt).bind fun d υ hd => ?_
  have hbits : lengthBits d = L := by
    rw [hd.1, hs.2.view, hf.length]
  -- no sector is missing, so the loop of `inode_extend` has no round
  rw [inodeExtend, if_neg (by omega), if_neg (by omega), length_eq hbits (by omega),
    bytesToSectors_eq (by unfold maxLength at hmax; omega), bytesToSectors_eq (by omega), hsector]
  dsimp only
  rw [Nat.sub_self, List.range'_zero]
  simp only [extendLoop, pure_bind, if_true, does_pure, true_and]
  exact hs.2.trans hd.2

theorem extendForWrite_within (h : σ.Sound) (hsize : σ.size < 2 ^ 32) (hf : FileOk σ inode.sector L)
    (hn : n ≤ L) : Does (extendForWrite alloc inode n) σ fun ok σ' => ok = true ∧ Same σ σ' := by
  rcases Nat.lt_or_eq_of_le hn with hlt | rfl
  · have hsmall := hf.small
    rw [extendForWrite, if_neg (by omega)]
    refine (byteToSector_does h hf hlt).bind fun s τ hs => ?_
    have hne : s ≠ noSector := by
      have := hf.data_lt (n / 512) (by omega)
      rw [hs.1]
      unfold noSector
      omega
    rw [if_neg hne, does_pure]
    exact ⟨rfl, hs.2⟩
  · exact extendForWrite_lastSector h hf le_rfl rfl

theorem beginWrite_within (h : σ.Sound) (hsize : σ.size < 2 ^ 32) (hp : σ.inodes p = some inode)
    (hdeny : inode.denyWriteCnt = 0) (hf : FileOk σ inode.sector L) (hle : offset + size ≤ L) :
    Does (beginWrite alloc p size offset) σ fun i σ' => i = some inode ∧ Same σ σ' := by
  refine (getInode_does hp).bind fun i τ hi => ?_
  obtain ⟨rfl, rfl⟩ := hi
  rw [if_neg (by simpa using hdeny)]
  refine (extendForWrite_within h hsize hf hle).bind fun ok υ hok => ?_
  rw [hok.1, if_pos rfl, does_pure]
  exact ⟨rfl, hok.2⟩

theorem inodeWriteAt_within (buffer : Block size) (h : σ.Sound) (hsize : σ.size < 2 ^ 32)
    (hp : σ.inodes p = some inode) (hdeny : inode.denyWriteCnt = 0)
    (hf : FileOk σ inode.sector L) (hle : offset + size ≤ L) :
    Does (inodeWriteAt alloc p buffer offset) σ fun w σ' =>
      w = size ∧ WroteData σ inode.sector buffer size offset 0 σ' := by
  refine (beginWrite_within h hsize hp hdeny hf hle).bind fun i τ hi => ?_
  rw [hi.1]
  have hfτ : FileOk τ inode.sector L := hf.of_view hi.2.size (by rw [hi.2.view])
  refine (writeLoop_does buffer hi.2.sound hfτ size 0 hle le_rfl).mono fun w σ' hw => ?_
  refine ⟨by rw [hw.1, Nat.zero_add], hw.2.of_same hi.2⟩

end CS162.Filesys
