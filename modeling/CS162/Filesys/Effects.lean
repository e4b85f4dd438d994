import CS162.Filesys.Bitmap
import CS162.Filesys.Coherent
import CS162.Filesys.Directory
import CS162.Filesys.InodeData

/-!
# What the functions can change

A function that reads leaves everything but the cache alone, and no view changes.  A function
that allocates and writes changes the cache and the free map, and takes no mark away from a
sector that was used: a failed `free_map_allocate` clears the bit it has set itself.
-/

namespace CS162.Filesys

open Option Cache
open Prog

variable {σ σ' : Fs} {inode : Inode} {α : Type} {cnt s : ℕ}

structure Reads (σ σ' : Fs) : Prop where
  rest : σ' = { σ with cache := σ'.cache }
  size : σ'.size = σ.size
  sound : σ.Sound → σ'.Sound
  coherent : σ.cache.Coherent → σ'.cache.Coherent
  view : σ.cache.Coherent → σ'.view = σ.view

instance : IsPreorder Fs Reads where
  refl _ := ⟨rfl, rfl, id, id, fun _ => rfl⟩
  trans _ _ _ h h' :=
    ⟨by rw [h'.rest, h.rest], h'.size.trans h.size, h'.sound ∘ h.sound,
      h'.coherent ∘ h.coherent, fun hc => (h'.view (h.coherent hc)).trans (h.view hc)⟩

theorem Reads.same (h : Reads σ σ') (hs : σ.Sound) : Same σ σ' :=
  ⟨⟨h.sound hs, h.size, h.rest⟩, h.view hs.coherent⟩

structure Marks (σ σ' : Fs) : Prop where
  rest : σ' = { σ with cache := σ'.cache, freeMap := σ'.freeMap }
  size : σ'.size = σ.size
  coherent : σ.cache.Coherent → σ'.cache.Coherent
  used : ∀ s, σ.freeMap s = true → σ'.freeMap s = true

instance : IsPreorder Fs Marks where
  refl _ := ⟨rfl, rfl, id, fun _ => id⟩
  trans _ _ _ h h' :=
    ⟨by rw [h'.rest, h.rest], h'.size.trans h.size, h'.coherent ∘ h.coherent,
      fun s hs => h'.used s (h.used s hs)⟩

theorem Reads.marks (h : Reads σ σ') : Marks σ σ' :=
  ⟨by rw [h.rest], h.size, h.coherent, fun s hs => by rw [h.rest]; exact hs⟩

theorem within_marks {x : Op α} (h : Within Reads x) : Within Marks x :=
  fun σ => (h σ).mono fun _ _ => Reads.marks

theorem getInode_ensures (p : ℕ) (σ : Fs) :
    Ensures (getInode p) σ fun i σ' => σ.inodes p = some i ∧ σ' = σ := by
  intro i σ' hr
  obtain ⟨i', hi, heq⟩ := map_eq_some_iff.mp hr
  cases heq
  exact ⟨hi, rfl⟩

theorem getFile_ensures (f : ℕ) (σ : Fs) :
    Ensures (getFile f) σ fun file σ' => σ.files f = some file ∧ σ' = σ := by
  intro file σ' hr
  obtain ⟨file', hf, heq⟩ := map_eq_some_iff.mp hr
  cases heq
  exact ⟨hf, rfl⟩

theorem getInode_reads (p : ℕ) : Within Reads (getInode p) :=
  fun σ => (getInode_ensures p σ).mono fun _ _ h => by rw [h.2]; exact refl σ

theorem getFile_reads (f : ℕ) : Within Reads (getFile f) :=
  fun σ => (getFile_ensures f σ).mono fun _ _ h => by rw [h.2]; exact refl σ

theorem cacheRead_reads (sector size offset : ℕ) : Within Reads (cacheRead sector size offset) := by
  intro σ b σ' hr
  obtain ⟨⟨c, b'⟩, hc, heq⟩ := map_eq_some_iff.mp hr
  cases heq
  have hsize := (bufferCacheRead_resize hc le_rfl).2
  refine ⟨rfl, hsize, fun hs => ?_, fun hco => ?_, fun hco => ?_⟩
  · obtain ⟨hlt, hoff⟩ := bufferCacheRead_inRange hs hc
    exact ((cacheRead_does hs hlt hoff).ensures _ _ hr).2.sound
  · exact (bufferCacheRead_coherent hco hc).2.1
  · exact (bufferCacheRead_coherent hco hc).2.2

theorem readBlock_reads (sector : ℕ) : Within Reads (readBlock sector) :=
  cacheRead_reads _ _ _

theorem readPtr_reads (sector offset : ℕ) : Within Reads (readPtr sector offset) :=
  (cacheRead_reads _ _ _).bind fun _ => within_pure _

theorem byteToSector_reads (inode : Inode) (pos : ℤ) : Within Reads (byteToSector inode pos) := by
  refine (readBlock_reads _).bind fun d => within_ite (within_pure _) ?_
  dsimp only
  split
  · exact within_pure _
  · exact readPtr_reads _ _
  · exact (readPtr_reads _ _).bind fun _ => readPtr_reads _ _

theorem inodeLength_reads (inode : Inode) : Within Reads (inodeLength inode) :=
  (readBlock_reads _).bind fun _ => within_pure _

theorem inodeIsdir_reads (inode : Inode) : Within Reads (inodeIsdir inode) :=
  (readBlock_reads _).bind fun _ => within_pure _

theorem readLoop_reads (inode : Inode) (fuel size offset : ℕ) (buffer : List UInt8) :
    Within Reads (readLoop inode fuel size offset buffer) := by
  induction fuel generalizing size offset buffer with
  | zero => exact within_pure _
  | succ fuel ih =>
    rw [readLoop]
    refine within_ite (within_pure _) ((byteToSector_reads _ _).bind fun s => ?_)
    refine (inodeLength_reads _).bind fun n => within_ite (within_pure _) ?_
    exact (cacheRead_reads _ _ _).bind fun _ => ih _ _ _

theorem inodeReadAt_reads (p size offset : ℕ) : Within Reads (inodeReadAt p size offset) := by
  refine (getInode_reads p).bind fun i => within_ite within_failure ?_
  refine (byteToSector_reads _ _).bind fun s => ?_
  exact within_ite (within_pure _) (readLoop_reads _ _ _ _ _)

theorem lookupLoop_reads (dir : ℕ) (name : CString) (fuel ofs : ℕ) :
    Within Reads ((inodeStore dir).lookupLoop name fuel ofs) := by
  induction fuel generalizing ofs with
  | zero => exact within_failure
  | succ fuel ih =>
    refine (inodeReadAt_reads _ _ _).bind fun e => within_ite ?_ (within_pure _)
    exact within_ite (within_pure _) (ih _)

theorem lookup_reads (dir : ℕ) (name : CString) : Within Reads (lookup dir name) :=
  lookupLoop_reads _ _ _ _

theorem freeSlotLoop_reads (dir fuel ofs : ℕ) (last : DirEntry) :
    Within Reads ((inodeStore dir).freeSlotLoop fuel ofs last) := by
  induction fuel generalizing ofs last with
  | zero => exact within_failure
  | succ fuel ih =>
    refine (inodeReadAt_reads _ _ _).bind fun e => within_ite ?_ (within_pure _)
    exact within_ite (ih _ _) (within_pure _)

theorem cacheWrite_marks (sector : ℕ) {size : ℕ} (data : Block size) (offset : ℕ) :
    Within Marks (cacheWrite sector data offset) := by
  intro σ u σ' hr
  obtain ⟨c, hc, heq⟩ := map_eq_some_iff.mp hr
  cases heq
  have hsize := (bufferCacheWrite_resize hc le_rfl).2.1
  exact ⟨rfl, hsize, fun hco => bufferCacheWrite_coherent hco hc, fun _ => id⟩

theorem writeBlock_marks (sector : ℕ) (d : Sector) : Within Marks (writeBlock sector d) :=
  cacheWrite_marks _ _ _

section Alloc

variable {alloc : Op (Option ℕ)}

theorem allocZeroed_marks (h : Within Marks alloc) : Within Marks (allocZeroed alloc) := by
  refine h.bind fun o => ?_
  split
  · exact within_pure _
  · exact (writeBlock_marks _ _).bind fun _ => within_pure _

section

variable (h : Within Marks alloc) (d : InodeDisk)

include h

theorem inodeAllocate_marks : Within Marks (inodeAllocate alloc d) := by
  refine h.bind fun o => ?_
  split
  · exact within_pure _
  · refine (writeBlock_marks _ _).bind fun _ => h.bind fun o => ?_
    split
    · exact within_pure _
    · exact (writeBlock_marks _ _).bind fun _ => within_pure _

theorem extendSector_marks (idx : ℕ) : Within Marks (extendSector alloc d idx) := by
  have hread : ∀ s o, Within Marks (readPtr s o) := fun s o => within_marks (readPtr_reads s o)
  unfold extendSector
  split
  · refine h.bind fun o => ?_
    split <;> exact within_pure _
  · refine (hread _ _).bind fun _ => (allocZeroed_marks h).bind fun o => ?_
    split <;> exact within_pure _
  · refine (hread _ _).bind fun p => ?_
    refine (within_ite (allocZeroed_marks h) (within_pure _)).bind fun o => ?_
    split
    · exact within_pure _
    · refine (hread _ _).bind fun _ => (allocZeroed_marks h).bind fun o => ?_
      split <;> exact within_pure _

theorem extendLoop_marks (idxs : List ℕ) : Within Marks (extendLoop alloc d idxs) := by
  induction idxs generalizing d with
  | nil => exact within_pure _
  | cons idx idxs ih =>
    exact (extendSector_marks h d idx).bind fun r => within_ite (ih _) (within_pure _)

theorem inodeExtend_marks (length : ℕ) : Within Marks (inodeExtend alloc d length) := by
  refine within_ite (within_pure _) (within_ite (within_pure _) ?_)
  exact (extendLoop_marks h _ _).bind fun r => within_ite (within_pure _) (within_pure _)

end

theorem writeLoop_marks (inode : Inode) {n : ℕ} (buffer : Block n) (fuel size offset written : ℕ) :
    Within Marks (writeLoop inode buffer fuel size offset written) := by
  induction fuel generalizing size offset written with
  | zero => exact within_pure _
  | succ fuel ih =>
    rw [writeLoop]
    refine within_ite (within_pure _) ?_
    refine (within_marks (byteToSector_reads _ _)).bind fun s => ?_
    refine (within_marks (inodeLength_reads _)).bind fun n => within_ite (within_pure _) ?_
    exact (cacheWrite_marks _ _ _).bind fun _ => ih _ _ _

theorem extendForWrite_marks (h : Within Marks alloc) (inode : Inode) (n : ℕ) :
    Within Marks (extendForWrite alloc inode n) := by
  refine within_ite within_failure ?_
  refine (within_marks (byteToSector_reads _ _)).bind fun s => within_ite ?_ (within_pure _)
  refine (within_marks (readBlock_reads _)).bind fun d => ?_
  exact (inodeExtend_marks h _ _).bind fun r => within_pure _

theorem beginWrite_marks (h : Within Marks alloc) (p size offset : ℕ) :
    Within Marks (beginWrite alloc p size offset) := by
  refine (within_marks (getInode_reads p)).bind fun i => within_ite (within_pure _) ?_
  exact (extendForWrite_marks h _ _).bind fun ok => within_ite (within_pure _) (within_pure _)

theorem inodeWriteAt_marks (h : Within Marks alloc) (p : ℕ) {size : ℕ} (buffer : Block size)
    (offset : ℕ) : Within Marks (inodeWriteAt alloc p buffer offset) := by
  refine (beginWrite_marks h _ _ _).bind fun o => ?_
  split
  · exact within_pure _
  · exact writeLoop_marks _ _ _ _ _ _

theorem bitmapWrite_marks (h : Within Marks alloc) (f : ℕ) :
    Within Marks (bitmapWrite alloc f) := by
  refine within_get.bind fun σ => (within_marks (getFile_reads f)).bind fun file => ?_
  refine (beginWrite_marks h _ _ _).bind fun o => ?_
  split
  · exact within_pure _
  · refine within_get.bind fun σ => ?_
    exact (writeLoop_marks _ _ _ _ _ _).bind fun _ => within_pure _

end Alloc

theorem bitmapSetMultiple_inside {bits : ℕ → Bool} {j : ℕ} {value : Bool} (hj : j < cnt) :
    bitmapSetMultiple bits s cnt value (s + j) = value :=
  if_pos ⟨Nat.le_add_right _ _, Nat.add_lt_add_left hj _⟩

theorem bitmapSetMultiple_outside {bits : ℕ → Bool} {t : ℕ} {value : Bool}
    (ht : ∀ j, j < cnt → t ≠ s + j) : bitmapSetMultiple bits s cnt value t = bits t := by
  refine if_neg fun h => ht (t - s) ?_ ?_ <;> omega

theorem marks_set (σ : Fs) (s cnt : ℕ) :
    Marks σ { σ with freeMap := bitmapSetMultiple σ.freeMap s cnt true } := by
  refine ⟨rfl, rfl, id, fun t ht => ?_⟩
  change bitmapSetMultiple σ.freeMap s cnt true t = true
  unfold bitmapSetMultiple
  split_ifs
  · rfl
  · exact ht

theorem Marks.clear (h : Marks σ σ') (hfree : ∀ j, j < cnt → σ.freeMap (s + j) = false) :
    Marks σ { σ' with freeMap := bitmapSetMultiple σ'.freeMap s cnt false } := by
  refine ⟨by rw [h.rest], h.size, h.coherent, fun t ht => ?_⟩
  refine (bitmapSetMultiple_outside fun j hj heq => ?_).trans (h.used t ht)
  rw [heq, hfree j hj] at ht
  cases ht

theorem allocateDepth_ensures (depth cnt : ℕ) (σ : Fs) :
    Ensures (allocateDepth depth cnt) σ fun o σ' => Marks σ σ' ∧ ∀ s, o = some s → ∀ j, j < cnt →
      σ.freeMap (s + j) = false ∧ σ'.freeMap (s + j) = true := by
  induction depth generalizing cnt σ with
  | zero => exact ensures_failure
  | succ depth ih =>
    rw [allocateDepth, ensures_bind, ensures_get]
    cases hscan : bitmapScan σ.freeMap σ.cache.blockSize cnt with
    | none => exact ensures_pure.mpr ⟨refl σ, fun s hs => by cases hs⟩
    | some s =>
      have hfree : ∀ j, j < cnt → σ.freeMap (s + j) = false := fun j hj => bitmapScan_clear hscan hj
      rw [ensures_bind, ensures_modify]
      have hset := marks_set σ s cnt
      have hmark : ∀ j, j < cnt → ({ σ with
          freeMap := bitmapSetMultiple σ.freeMap s cnt true } : Fs).freeMap (s + j) = true :=
        fun j hj => bitmapSetMultiple_inside hj
      generalize ({ σ with
        freeMap := bitmapSetMultiple σ.freeMap s cnt true } : Fs) = υ at hset hmark ⊢
      cases σ.freeMapFile with
      | none =>
        refine ensures_pure.mpr ⟨hset, fun t ht j hj => ?_⟩
        cases ht
        exact ⟨hfree j hj, hmark j hj⟩
      | some f =>
        have halloc : Within Marks (allocateDepth depth 1) :=
          fun τ => (ih 1 τ).mono fun _ _ h => h.1
        refine (bitmapWrite_marks halloc f _).bind fun ok τ hτ => ?_
        have hall := IsTrans.trans _ _ _ hset hτ
        cases ok with
        | true =>
          refine ensures_pure.mpr ⟨hall, fun t ht j hj => ?_⟩
          cases ht
          exact ⟨hfree j hj, hτ.used _ (hmark j hj)⟩
        | false =>
          rw [if_neg (by simp), ensures_bind, ensures_modify, ensures_pure]
          exact ⟨hall.clear hfree, fun t ht => by cases ht⟩

theorem freeMapAllocate_ensures (cnt : ℕ) (σ : Fs) :
    Ensures (freeMapAllocate cnt) σ fun o σ' => Marks σ σ' ∧ ∀ s, o = some s → ∀ j, j < cnt →
      σ.freeMap (s + j) = false ∧ σ'.freeMap (s + j) = true := by
  rw [freeMapAllocate, ensures_bind, ensures_get]
  exact allocateDepth_ensures _ _ _

theorem freeMapAllocate_marks (cnt : ℕ) : Within Marks (freeMapAllocate cnt) :=
  fun σ => (freeMapAllocate_ensures cnt σ).mono fun _ _ h => h.1

theorem freeMapRelease_ensures (s cnt : ℕ) (σ : Fs) :
    Ensures (freeMapRelease s cnt) σ fun _ σ' =>
      Marks { σ with freeMap := bitmapSetMultiple σ.freeMap s cnt false } σ' := by
  rw [freeMapRelease, ensures_bind, ensures_get]
  split_ifs
  · rw [ensures_bind, ensures_modify]
    cases σ.freeMapFile with
    | none => exact ensures_failure
    | some f =>
      refine (bitmapWrite_marks (freeMapAllocate_marks 1) f _).bind fun ok τ hτ => ?_
      exact ensures_pure.mpr hτ
  · exact ensures_failure

theorem inodeCreate_marks (sector length : ℕ) : Within Marks (inodeCreate sector length) := by
  have h := freeMapAllocate_marks 1
  refine within_ite ((inodeAllocate_marks h _).bind fun r => ?_) within_failure
  refine (inodeExtend_marks h _ _).bind fun r => (writeBlock_marks _ _).bind fun _ => ?_
  exact within_pure _

theorem dirAdd_marks (dir : ℕ) (name : CString) (sector : ℕ) :
    Within Marks (dirAdd dir name sector) := by
  refine within_ite (within_pure _) ((within_marks (lookup_reads _ _)).bind fun o => ?_)
  split
  · exact within_pure _
  · refine (within_marks (freeSlotLoop_reads _ _ _ _)).bind fun r => ?_
    refine (inodeWriteAt_marks (freeMapAllocate_marks 1) _ _ _).bind fun n => ?_
    exact within_pure _

end CS162.Filesys
