import CS162.Filesys.InodeData

/-!
# Allocation

`free_map_allocate` in a file system whose free map file is as `free_map_create` makes
it: the call fails exactly when no sector is free, and otherwise it marks the first free
sector and rewrites the data of the free map file, and nothing else.
-/

namespace CS162.Filesys

open Option Function List
open Prog

variable {σ σ' τ : Fs} {inode : Inode} {f s sector : ℕ}

def Fs.mapInode (σ : Fs) : Option Inode :=
  (σ.freeMapFile.bind σ.files).bind fun file => σ.inodes file.inode

def Fs.mapSector (σ : Fs) : Option ℕ :=
  σ.mapInode.map Inode.sector

/-- A sector holds data of the free map file. -/
def MapData (σ : Fs) (s : ℕ) : Prop :=
  ∃ sector i, σ.mapSector = some sector ∧ 512 * i < bitmapFileSize σ.size ∧
    s = dataSector σ sector i

/-- The file on `sector` has the size of the free map and lies in direct sectors that are
marked used. -/
structure MapFileOk (σ : Fs) (sector : ℕ) : Prop where
  file : FileOk σ sector (bitmapFileSize σ.size)
  used : σ.freeMap sector = true
  data_used : ∀ i, 512 * i < bitmapFileSize σ.size →
    σ.freeMap (dataSector σ sector i) = true

/-- The file system is in order: the cache is sound, sector numbers fit their type, and
the free map file, once it is open, is as it was created and can be written. -/
structure FsOk (σ : Fs) : Prop where
  sound : σ.Sound
  size_lt : σ.size < 2 ^ 32
  opened : σ.freeMapFile ≠ none → ∃ inode, σ.mapInode = some inode ∧ inode.denyWriteCnt = 0
  map : ∀ sector, σ.mapSector = some sector → MapFileOk σ sector

/-- A change that keeps the free map file, its inode and the marks of its sectors. -/
structure KeepsMap (σ σ' : Fs) : Prop where
  size : σ'.size = σ.size
  freeMapFile : σ'.freeMapFile = σ.freeMapFile
  mapSector : σ'.mapSector = σ.mapSector
  mapDeny : σ'.mapInode.map Inode.denyWriteCnt = σ.mapInode.map Inode.denyWriteCnt
  view : ∀ sector, σ.mapSector = some sector → σ'.view sector = σ.view sector
  used : ∀ s, σ.freeMap s = true → σ'.freeMap s = true

theorem KeepsMap.dataSector (h : KeepsMap σ σ') (hi : σ.mapSector = some sector) (i : ℕ) :
    dataSector σ' sector i = dataSector σ sector i := by
  unfold Filesys.dataSector
  rw [h.view sector hi]

theorem KeepsMap.mapData (h : KeepsMap σ σ') : MapData σ' s ↔ MapData σ s := by
  unfold MapData
  rw [h.mapSector, h.size]
  constructor
  · rintro ⟨sector, i, hi, hlt, hs⟩
    exact ⟨sector, i, hi, hlt, hs.trans (h.dataSector hi i)⟩
  · rintro ⟨sector, i, hi, hlt, hs⟩
    exact ⟨sector, i, hi, hlt, hs.trans (h.dataSector hi i).symm⟩

theorem FsOk.of_keepsMap (h : FsOk σ) (hk : KeepsMap σ σ') (hs : σ'.Sound) : FsOk σ' := by
  refine ⟨hs, by rw [hk.size]; exact h.size_lt, fun hf => ?_, fun sector hi => ?_⟩
  · rw [hk.freeMapFile] at hf
    obtain ⟨inode, hi, hdeny⟩ := h.opened hf
    have hd := hk.mapDeny
    rw [hi, map_some, hdeny, map_eq_some_iff] at hd
    exact hd
  · rw [hk.mapSector] at hi
    have hm := h.map sector hi
    refine ⟨?_, hk.used _ hm.used, fun i hlt => ?_⟩
    · rw [hk.size]
      exact hm.file.of_view hk.size (hk.view sector hi)
    · rw [hk.size] at hlt
      rw [hk.dataSector hi]
      exact hk.used _ (hm.data_used i hlt)

theorem FsOk.mapData_used (h : FsOk σ) (hs : MapData σ s) : σ.freeMap s = true := by
  obtain ⟨sector, i, hi, hlt, rfl⟩ := hs
  exact (h.map sector hi).data_used i hlt

theorem FsOk.not_mapData (h : FsOk σ) (hi : σ.mapSector = some sector) : ¬ MapData σ sector := by
  rintro ⟨sector', i, hi', hlt, heq⟩
  rw [hi] at hi'
  cases hi'
  exact (h.map sector hi).file.data_ne i hlt heq.symm

structure MapWritten (σ σ' : Fs) : Prop extends CacheOnly σ σ' where
  view : ∀ s, ¬ MapData σ s → σ'.view s = σ.view s

theorem bitmapWrite_does {alloc : Op (Option ℕ)} (h : σ.Sound) (hsize : σ.size < 2 ^ 32)
    (hf : σ.freeMapFile = some f) (hi : σ.mapInode = some inode)
    (hfile : FileOk σ inode.sector (bitmapFileSize σ.size)) (hdeny : inode.denyWriteCnt = 0) :
    Does (bitmapWrite alloc f) σ fun ok σ' => ok = true ∧ MapWritten σ σ' := by
  have hsector : σ.mapSector = some inode.sector := by
    rw [Fs.mapSector, hi, map_some]
  rw [Fs.mapInode, hf, bind_some, bind_eq_some_iff] at hi
  obtain ⟨file, hfl, hp⟩ := hi
  unfold bitmapWrite
  rw [does_bind, does_get, does_bind]
  refine ⟨file, σ, by change (σ.files f).map _ = _; rw [hfl]; rfl, ?_⟩
  dsimp only
  have hle : 0 + bitmapFileSize σ.cache.blockSize ≤ bitmapFileSize σ.size := by
    rw [Nat.zero_add]
    exact le_rfl
  refine (beginWrite_within h hsize hp hdeny hfile hle).bind fun i τ hi => ?_
  rw [hi.1]
  dsimp only
  rw [does_bind, does_get]
  have hfτ : FileOk τ inode.sector (bitmapFileSize σ.size) :=
    hfile.of_view hi.2.size (by rw [hi.2.view])
  refine (writeLoop_does _ hi.2.sound hfτ _ 0 hle le_rfl).bind fun w υ hw => ?_
  rw [does_pure]
  have hdata := hw.2.of_same hi.2
  refine ⟨by rw [hw.1, Nat.zero_add]; exact decide_eq_true rfl, hdata.toCacheOnly, fun s hs => ?_⟩
  exact hdata.frame s fun pos _ hpos heq =>
    hs ⟨inode.sector, pos / 512, hsector, by omega, heq⟩

theorem bitmapSetMultiple_one (bits : ℕ → Bool) (s : ℕ) (value : Bool) :
    bitmapSetMultiple bits s 1 value = update bits s value := by
  funext i
  unfold bitmapSetMultiple
  by_cases hi : i = s
  · rw [hi, update_self, if_pos (by omega)]
  · rw [update_of_ne hi, if_neg (by omega)]

theorem bitmapScan_one_eq_some {bits : ℕ → Bool} {n : ℕ} (h : bitmapScan bits n 1 = some s) :
    s < n ∧ bits s = false ∧ ∀ t < s, bits t = true := by
  unfold bitmapScan at h
  split_ifs at h with hn
  obtain ⟨hbit, hmem, hfirst⟩ := find?_range_eq_some.mp h
  rw [mem_range] at hmem
  simp at hbit hfirst
  exact ⟨by omega, hbit, hfirst⟩

theorem bitmapScan_one_eq_none {bits : ℕ → Bool} {n : ℕ} :
    bitmapScan bits n 1 = none ↔ ∀ i, i < n → bits i = true := by
  unfold bitmapScan
  split_ifs with hn
  · rw [find?_eq_none]
    simp only [mem_range, Nat.sub_add_cancel hn]
    simp
  · simp only [true_iff]
    intro i hi
    omega

/-- A sector has been allocated: it was the first free one, it is marked now, and besides only
the data of the free map file has changed. -/
structure Allocated (σ : Fs) (s : ℕ) (σ' : Fs) : Prop where
  lt : s < σ.size
  free : σ.freeMap s = false
  first : ∀ t < s, σ.freeMap t = true
  freeMap : σ'.freeMap = update σ.freeMap s true
  sound : σ'.Sound
  size : σ'.size = σ.size
  rest : σ' = { σ with cache := σ'.cache, freeMap := σ'.freeMap }
  view : ∀ t, ¬ MapData σ t → σ'.view t = σ.view t

/-- What an allocation does: there is no free sector and nothing happens, or one is
allocated. -/
def AllocSpec (σ : Fs) : Option ℕ → Fs → Prop
  | none, σ' => σ' = σ ∧ ∀ i, i < σ.size → σ.freeMap i = true
  | some s, σ' => Allocated σ s σ'

theorem Allocated.keepsMap (h : FsOk σ) (ha : Allocated σ s σ') : KeepsMap σ σ' where
  size := ha.size
  freeMapFile := by rw [ha.rest]
  mapSector := by rw [ha.rest]; rfl
  mapDeny := by rw [ha.rest]; rfl
  view sector hi := ha.view _ (h.not_mapData hi)
  used t ht := by
    rw [ha.freeMap, update_apply]
    split_ifs
    · rfl
    · exact ht

theorem Allocated.ok (h : FsOk σ) (ha : Allocated σ s σ') : FsOk σ' :=
  h.of_keepsMap (ha.keepsMap h) ha.sound

theorem allocateDepth_does (h : FsOk σ) (depth : ℕ) :
    Does (allocateDepth (depth + 1) 1) σ (AllocSpec σ) := by
  rw [allocateDepth, does_bind, does_get]
  cases hscan : bitmapScan σ.freeMap σ.cache.blockSize 1 with
  | none =>
    rw [does_pure]
    exact ⟨rfl, bitmapScan_one_eq_none.mp hscan⟩
  | some s =>
    obtain ⟨hlt, hfree, hfirst⟩ := bitmapScan_one_eq_some hscan
    rw [does_bind, does_modify, bitmapSetMultiple_one]
    generalize hτ : ({ σ with freeMap := update σ.freeMap s true } : Fs) = τ
    cases hf : σ.freeMapFile with
    | none =>
      rw [does_pure, ← hτ]
      exact ⟨hlt, hfree, hfirst, rfl, h.sound, rfl, rfl, fun _ _ => rfl⟩
    | some f =>
      obtain ⟨inode, hi, hdeny⟩ := h.opened (by simp [hf])
      have hm := h.map inode.sector (by rw [Fs.mapSector, hi, map_some])
      subst hτ
      refine (bitmapWrite_does (σ := { σ with freeMap := update σ.freeMap s true })
        h.sound h.size_lt hf hi
        (hm.file.of_view rfl rfl) hdeny).bind fun ok τ hok => ?_
      rw [hok.1, if_pos rfl, does_pure]
      refine ⟨hlt, hfree, hfirst, ?_, hok.2.sound, hok.2.size, ?_, fun t ht => ?_⟩
      · rw [hok.2.rest]
      · rw [hok.2.rest]
      · exact hok.2.view t ht

theorem freeMapAllocate_does (h : FsOk σ) : Does (freeMapAllocate 1) σ (AllocSpec σ) := by
  rw [freeMapAllocate, does_bind, does_get]
  exact allocateDepth_does h σ.cache.blockSize

/-- A sector has been released: it is no longer marked, and besides only the data of the
free map file has changed. -/
structure Released (σ : Fs) (s : ℕ) (σ' : Fs) : Prop where
  freeMap : σ'.freeMap = update σ.freeMap s false
  rest : σ' = { σ with cache := σ'.cache, freeMap := σ'.freeMap }
  sound : σ'.Sound
  size : σ'.size = σ.size
  view : ∀ t, ¬ MapData σ t → σ'.view t = σ.view t

theorem freeMapRelease_released (h : FsOk σ) (s : ℕ) :
    Ensures (freeMapRelease s 1) σ fun _ σ' => Released σ s σ' := by
  rw [freeMapRelease, ensures_bind, ensures_get]
  refine ensures_ite (fun _ => ?_) fun _ => ensures_failure
  rw [ensures_bind, ensures_modify, bitmapSetMultiple_one]
  generalize hτ : ({ σ with freeMap := update σ.freeMap s false } : Fs) = τ
  cases hf : σ.freeMapFile with
  | none => exact ensures_failure
  | some f =>
    obtain ⟨inode, hi, hdeny⟩ := h.opened (by simp [hf])
    have hm := h.map inode.sector (by rw [Fs.mapSector, hi, map_some])
    subst hτ
    refine (bitmapWrite_does (σ := { σ with freeMap := update σ.freeMap s false })
      h.sound h.size_lt hf hi (hm.file.of_view rfl rfl) hdeny).ensures.bind fun ok τ hok => ?_
    refine ensures_pure.mpr ⟨?_, ?_, hok.2.sound, hok.2.size, fun t ht => hok.2.view t ht⟩
    · rw [hok.2.rest]
    · rw [hok.2.rest]

def Fs.freeSectors (σ : Fs) : Finset ℕ :=
  (Finset.range σ.size).filter fun s => σ.freeMap s = false

/-- The free sectors in ascending order. -/
def Fs.freeList (σ : Fs) : List ℕ :=
  (range σ.size).filter fun s => !σ.freeMap s

theorem Allocated.freeList (ha : Allocated σ s σ') : σ.freeList = s :: σ'.freeList := by
  have hsplit : range σ.size = range s ++ s :: range' (s + 1) (σ.size - (s + 1)) := by
    have hlt := ha.lt
    have happend := @range'_append_1 0 s (σ.size - (s + 1) + 1)
    rw [Nat.zero_add] at happend
    rw [range_eq_range', range_eq_range', ← range'_succ, happend]
    congr 1
    omega
  have hbelow : (range s).filter (fun t => !σ.freeMap t) = [] ∧
      (range s).filter (fun t => !σ'.freeMap t) = [] := by
    rw [filter_eq_nil_iff, filter_eq_nil_iff, ha.freeMap]
    refine ⟨fun t ht => ?_, fun t ht => ?_⟩ <;> have hlt := mem_range.mp ht
    · simp [ha.first t hlt]
    · simp [update_of_ne hlt.ne, ha.first t hlt]
  have habove : (range' (s + 1) (σ.size - (s + 1))).filter (fun t => !σ'.freeMap t) =
      (range' (s + 1) (σ.size - (s + 1))).filter fun t => !σ.freeMap t := by
    refine filter_congr fun t ht => ?_
    rw [mem_range'_1] at ht
    rw [ha.freeMap, update_of_ne (by omega)]
  have hself : σ'.freeMap s = true := by rw [ha.freeMap, update_self]
  rw [Fs.freeList, Fs.freeList, ha.size, hsplit, filter_append, filter_append, hbelow.1, hbelow.2,
    filter_cons, filter_cons, ha.free, hself, habove]
  rfl

theorem mem_freeSectors : s ∈ σ.freeSectors ↔ s < σ.size ∧ σ.freeMap s = false := by
  simp [Fs.freeSectors]

end CS162.Filesys
